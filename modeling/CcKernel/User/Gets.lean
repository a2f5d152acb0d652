/-
  Reading a line (`gets` of `user/console.c`).
-/
import CcKernel.Device.PL011
import CcKernel.Lib.Exchange
import CcKernel.User.Console

namespace CcKernel

open Duplex PyStr CStr

/-- The loop of `gets` with `k` iterations to go; `x` is the array before and after. -/
def getsLoop : ℕ → ℕ → List UInt8 → Prog (List UInt8)
  | 0, _, x => return x
  | k + 1, i, x => do
    let x := x.set i (← pl011Getc)
    if x[i]? = some 0x0A then
      return x.set i 0x00
    else
      getsLoop k (i + 1) x

def gets (x : List UInt8) (n : ℕ) : Prog (List UInt8) := getsLoop n 0 x

/-! ## The loop -/

theorem getsLoop_succ (k : ℕ) (pre y : List UInt8) (b : UInt8) :
    getsLoop (k + 1) pre.length (pre ++ b :: y) = .get fun c =>
      if c = eol then .ret (pre ++ 0 :: y)
      else getsLoop k (pre ++ [c]).length (pre ++ [c] ++ y) := by
  have hset (c c' : UInt8) : (pre ++ c :: y).set pre.length c' = pre ++ c' :: y := by
    rw [List.set_append_right _ _ le_rfl, Nat.sub_self, List.set_cons_zero]
  show (Prog.get fun c => _) = _
  congr 1
  funext c
  have hc : (pre ++ c :: y)[pre.length]? = some 0x0A ↔ c = eol := by
    rw [List.getElem?_append_right le_rfl, Nat.sub_self, List.getElem?_cons_zero]
    exact Option.some_inj
  simp only [hset, List.length_append, List.length_singleton, List.append_assoc,
    List.singleton_append]
  show (if (pre ++ c :: y)[pre.length]? = some 0x0A then Prog.ret (pre ++ 0 :: y) else _) = _
  simp only [hc]

/-- A character other than LF is stored, and the loop goes on behind it. -/
theorem yields_getsLoop_cons {k : ℕ} {c : UInt8} (hc : c ≠ eol) {pre y bs z : List UInt8}
    (hy : k + 1 ≤ y.length)
    (h : Yields (getsLoop k (pre ++ [c]).length (pre ++ [c] ++ y.drop 1)) bs z) :
    Yields (getsLoop (k + 1) pre.length (pre ++ y)) (c :: bs) z := by
  obtain ⟨b, y, rfl⟩ := List.exists_cons_of_length_pos (show 0 < y.length by omega)
  rw [getsLoop_succ]
  show Yields (if c = eol then _ else _) bs z
  rwa [if_neg hc]

/-- A line that fits is stored with a NUL in the place of its LF, -/
theorem yields_getsLoop_line {k : ℕ} {line : List UInt8} (hline : eol ∉ line) (hk : line.length < k)
    (pre : List UInt8) {y : List UInt8} (hy : k ≤ y.length) :
    Yields (getsLoop k pre.length (pre ++ y)) (line ++ [eol])
      (pre ++ line ++ 0 :: y.drop (line.length + 1)) := by
  obtain ⟨k, rfl⟩ := Nat.exists_eq_add_one.2 (show 0 < k by omega)
  induction line generalizing k pre y with
  | nil =>
    obtain ⟨b, y, rfl⟩ := List.exists_cons_of_length_pos (show 0 < y.length by omega)
    rw [getsLoop_succ]
    show Yields (if eol = eol then _ else _) [] _
    rw [if_pos rfl]
    simp [Yields]
  | cons c line ih =>
    obtain ⟨hc, hl⟩ := not_or.1 (List.mem_cons.not.1 hline)
    obtain ⟨k, rfl⟩ := Nat.exists_eq_add_one.2 (show 0 < k by simp at hk; omega)
    have h := ih hl (pre ++ [c]) k (by simpa using hk) (y := y.drop 1) (by simp; omega)
    refine yields_getsLoop_cons (Ne.symm hc) hy ?_
    simpa using h

/-- and of a longer one the beginning, as it is. -/
theorem yields_getsLoop_full {k : ℕ} {line : List UInt8} (hline : eol ∉ line) (hk : line.length = k)
    (pre : List UInt8) {y : List UInt8} (hy : k ≤ y.length) :
    Yields (getsLoop k pre.length (pre ++ y)) line (pre ++ line ++ y.drop k) := by
  subst hk
  induction line generalizing pre y with
  | nil =>
    rw [List.append_nil, List.length_nil, List.drop_zero]
    exact rfl
  | cons c line ih =>
    obtain ⟨hc, hl⟩ := not_or.1 (List.mem_cons.not.1 hline)
    have h := ih hl (pre ++ [c]) (y := y.drop 1) (by simp at hy ⊢; omega)
    refine yields_getsLoop_cons (Ne.symm hc) hy ?_
    simpa using h

variable {x : List UInt8} {n : ℕ} {line : List UInt8}

theorem yields_gets_line (hline : eol ∉ line) (hn : line.length < n) (hx : n ≤ x.length) :
    Yields (gets x n) (line ++ [eol]) (line ++ 0 :: x.drop (line.length + 1)) :=
  yields_getsLoop_line hline hn [] hx

theorem yields_gets_full (hline : eol ∉ line) (hn : line.length = n) (hx : n ≤ x.length) :
    Yields (gets x n) line (line ++ x.drop n) :=
  yields_getsLoop_full hline hn [] hx

/-! ## Lines -/

variable {d : List UInt8}

/-- The bytes before the first LF, -/
def firstLine (d : List UInt8) : List UInt8 := d.takeWhile (· != eol)

/-- and those after it. -/
def afterLine (d : List UInt8) : List UInt8 := (d.dropWhile (· != eol)).drop 1

theorem eol_notMem_firstLine (d : List UInt8) : eol ∉ firstLine d := by
  intro h
  simpa using List.mem_takeWhile_imp h

theorem firstLine_append (h : eol ∈ d) : d = firstLine d ++ [eol] ++ afterLine d := by
  have happ := List.takeWhile_append_dropWhile (p := (· != eol)) (l := d)
  rcases hdrop : d.dropWhile (· != eol) with _ | ⟨b, rest⟩
  · rw [hdrop, List.append_nil] at happ
    have hno := eol_notMem_firstLine d
    rw [firstLine, happ] at hno
    exact absurd h hno
  · have hb : b = eol := by
      have hhead := List.head_dropWhile_not (p := (· != eol)) (l := d) (by rw [hdrop]; simp)
      simpa [hdrop] using hhead
    rw [firstLine, afterLine, hdrop, List.append_assoc]
    rw [hdrop, hb] at happ
    exact happ.symm

theorem run_gets_line (hd : eol ∈ d) (hn : (firstLine d).length < n) (hx : n ≤ x.length) :
    run (gets x n) d =
      some ⟨firstLine d ++ 0 :: x.drop ((firstLine d).length + 1), [], afterLine d⟩ := by
  conv_lhs => rw [firstLine_append hd]
  exact (yields_gets_line (eol_notMem_firstLine d) hn hx).run _

theorem run_gets_full (hn : n ≤ (firstLine d).length) (hx : n ≤ x.length) :
    run (gets x n) d = some ⟨(firstLine d).take n ++ x.drop n, [], d.drop n⟩ := by
  have hline : eol ∉ (firstLine d).take n := by
    intro h
    exact eol_notMem_firstLine d (List.mem_of_mem_take h)
  have hlen : ((firstLine d).take n).length = n := by rw [List.length_take]; omega
  have htake : (firstLine d).take n = d.take n := by
    have hprefix : firstLine d <+: d := List.takeWhile_prefix _
    obtain ⟨t, ht⟩ := hprefix
    conv_rhs => rw [← ht, List.take_append_of_le_length hn]
  have hy := (yields_gets_full hline hlen hx).run (d.drop n)
  rwa [htake, List.take_append_drop, ← htake] at hy

/-- What a call of `gets` for the first line of `d` is to leave. -/
structure ReadsLine (x : List UInt8) (n : ℕ) (d : List UInt8) (e : Exchange (List UInt8)) :
    Prop where
  frame : e.result.length = x.length ∧ ∀ i, n ≤ i → e.result[i]? = x[i]?
  terminated : 0 ∈ e.result.take n
  string : ofArray e.result = (firstLine d).take (n - 1)
  consumed : e.rest = afterLine d

/-- The call returns and leaves that. -/
def GetsLine (x : List UInt8) (n : ℕ) (d : List UInt8) : Prop :=
  ∃ e, run (gets x n) d = some e ∧ ReadsLine x n d e

theorem getsLine_of_lt (hd : eol ∈ d) (hn : (firstLine d).length < n) (h0 : 0 ∉ firstLine d)
    (hx : n ≤ x.length) : GetsLine x n d := by
  refine ⟨_, run_gets_line hd hn hx, ?_, ?_, ?_, rfl⟩
  · constructor
    · simp
      omega
    · intro i hi
      rw [List.getElem?_append_right (by omega)]
      obtain ⟨j, hj⟩ : ∃ j, i - (firstLine d).length = j + 1 :=
        ⟨i - (firstLine d).length - 1, by omega⟩
      rw [hj, List.getElem?_cons_succ, List.getElem?_drop]
      congr 1
      omega
  · rw [List.take_append, List.take_of_length_le hn.le]
    obtain ⟨j, hj⟩ : ∃ j, n - (firstLine d).length = j + 1 :=
      ⟨n - (firstLine d).length - 1, by omega⟩
    rw [hj, List.take_succ_cons]
    simp
  · rw [List.take_of_length_le (by omega)]
    exact ofArray_append_zero h0 _

/-- **`gets` reads a line and terminates it exactly if the line is shorter than the
    array**, and has no NUL of its own. -/
theorem getsLine_iff (hn : 1 ≤ n) (hx : n ≤ x.length) (hd : eol ∈ d) :
    GetsLine x n d ↔ (firstLine d).length < n ∧ 0 ∉ firstLine d := by
  constructor
  · rintro ⟨e, he, h⟩
    by_cases hlt : (firstLine d).length < n
    · refine ⟨hlt, fun h0 => ?_⟩
      have hstring := h.string
      rw [List.take_of_length_le (by omega)] at hstring
      exact zero_notMem_ofArray e.result (hstring ▸ h0)
    · -- the rest of the line has not been consumed
      exfalso
      have hrun := run_gets_full (d := d) (by omega) hx
      rw [he] at hrun
      have hrest : d.drop n = afterLine d := by
        rw [← h.consumed, Option.some.inj hrun]
      have hlen := congrArg List.length hrest
      have hdlen := congrArg List.length (firstLine_append hd)
      simp only [List.length_drop, List.length_append, List.length_singleton] at hlen hdlen
      omega
  · rintro ⟨hlt, h0⟩
    exact getsLine_of_lt hd hlt h0 hx

/-! ## The command line -/

/-- `gets( cmd, MAX_CMD_CHARS )` leaves a string in `cmd`. -/
def HandsString (cmd : List UInt8) (d : List UInt8) : Prop :=
  ∃ e, run (gets cmd maxCmdChars) d = some e ∧ 0 ∈ e.result

theorem handsString_iff {cmd : List UInt8} (hx : cmd.length = maxCmdChars) (hd : eol ∈ d) :
    HandsString cmd d ↔
      (firstLine d).length < maxCmdChars ∨ 0 ∈ (firstLine d).take maxCmdChars := by
  by_cases hlt : (firstLine d).length < maxCmdChars
  · refine iff_of_true ?_ (Or.inl hlt)
    exact ⟨_, run_gets_line hd hlt hx.ge, by simp⟩
  · have hrun := run_gets_full (d := d) (not_lt.1 hlt) hx.ge
    rw [List.drop_eq_nil_of_le hx.le, List.append_nil] at hrun
    constructor
    · rintro ⟨e, he, h0⟩
      rw [hrun] at he
      cases he
      exact Or.inr h0
    · intro h
      exact ⟨_, hrun, h.resolve_left hlt⟩

/-- **Line reading**, of `gets` and of the console. -/
theorem lineRead_iff (hn : 1 ≤ n) (hx : n ≤ x.length) {cmd : List UInt8}
    (hcmd : cmd.length = maxCmdChars) (hd : eol ∈ d) :
    (GetsLine x n d ↔ (firstLine d).length < n ∧ 0 ∉ firstLine d) ∧
      (HandsString cmd d ↔
        (firstLine d).length < maxCmdChars ∨ 0 ∈ (firstLine d).take maxCmdChars) :=
  ⟨getsLine_iff hn hx hd, handsString_iff hcmd hd⟩

/-- One character and the LF, for an array of two. -/
theorem lineRead_two :
    (GetsLine [1, 1] 2 [65, eol] ↔
        (firstLine [65, eol]).length < 2 ∧ 0 ∉ firstLine [65, eol]) ∧
      (HandsString (List.replicate maxCmdChars 1) [65, eol] ↔
        (firstLine [65, eol]).length < maxCmdChars ∨ 0 ∈ (firstLine [65, eol]).take maxCmdChars) :=
  lineRead_iff (by decide) (by decide) (List.length_replicate ..) (by decide)

/-- Two characters. -/
theorem not_getsLine_two : ¬ GetsLine [1, 1] 2 [65, 66, eol] := by
  intro h
  have hlt := ((getsLine_iff (by decide) (by decide) (by decide)).1 h).1
  revert hlt
  decide

end CcKernel
