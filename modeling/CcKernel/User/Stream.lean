/-
  The console on any stream of bytes.

  `Session` is about lines of two words.  Here nothing is assumed of the bytes
  that arrive: they fall into chunks, each up to an LF or as long as `cmd`, and
  an iteration is a function of its chunk.  So what `cmd` holds when an
  iteration starts never matters, and the rest of a long line is taken for the
  next command.
-/
import CcKernel.User.Session

namespace CcKernel

open Duplex CStr
open PyStr (space)

/-! ## Chunks -/

/-- What `gets` stores of the stream, and what it leaves of it; nothing as long
    as it waits. -/
def chunk (n : ℕ) (d : List UInt8) : Option (List UInt8 × List UInt8) :=
  if eol ∈ d.take n then some (firstLine d ++ [0], afterLine d)
  else if n ≤ d.length then some (d.take n, d.drop n)
  else none

section
variable {x d : List UInt8} {n : ℕ}

theorem eol_mem_take_iff : eol ∈ d.take n ↔ eol ∈ d ∧ (firstLine d).length < n := by
  constructor
  · intro h
    have hd : eol ∈ d := List.mem_of_mem_take h
    refine ⟨hd, ?_⟩
    by_contra hn
    have hprefix : firstLine d <+: d := List.takeWhile_prefix _
    obtain ⟨t, ht⟩ := hprefix
    rw [← ht, List.take_append_of_le_length (not_lt.1 hn)] at h
    exact eol_notMem_firstLine d (List.mem_of_mem_take h)
  · rintro ⟨hd, hn⟩
    rw [firstLine_append hd, List.append_assoc, List.take_append]
    obtain ⟨j, hj⟩ : ∃ j, n - (firstLine d).length = j + 1 :=
      ⟨n - (firstLine d).length - 1, by omega⟩
    rw [hj, List.singleton_append, List.take_succ_cons]
    simp

/-- The loop waits, by induction on the bytes that have arrived. -/
theorem run_getsLoop_none (hd : eol ∉ d) {k : ℕ} (hk : d.length < k) (pre : List UInt8)
    {y : List UInt8} (hy : k ≤ y.length) : run (getsLoop k pre.length (pre ++ y)) d = none := by
  induction d generalizing k pre y with
  | nil =>
    obtain ⟨k, rfl⟩ := Nat.exists_eq_add_one.2 (show 0 < k by simpa using hk)
    obtain ⟨b, y, rfl⟩ := List.exists_cons_of_length_pos (show 0 < y.length by omega)
    rw [getsLoop_succ]
    rfl
  | cons c d ih =>
    obtain ⟨hc, hd⟩ := not_or.1 (List.mem_cons.not.1 hd)
    obtain ⟨k, rfl⟩ := Nat.exists_eq_add_one.2 (show 0 < k by omega)
    obtain ⟨b, y, rfl⟩ := List.exists_cons_of_length_pos (show 0 < y.length by omega)
    rw [getsLoop_succ]
    show run (if c = eol then _ else _) d = none
    rw [if_neg (Ne.symm hc)]
    exact ih hd (by simpa using hk) (pre ++ [c]) (by simpa using hy)

/-- `gets` takes a chunk. -/
theorem run_gets (hx : n ≤ x.length) :
    run (gets x n) d = (chunk n d).map fun c => ⟨c.1 ++ x.drop c.1.length, [], c.2⟩ := by
  unfold chunk
  by_cases heol : eol ∈ d.take n
  · obtain ⟨hd, hn⟩ := eol_mem_take_iff.1 heol
    rw [if_pos heol, run_gets_line hd hn hx]
    simp
  rw [if_neg heol]
  by_cases hn : n ≤ d.length
  · rw [if_pos hn, Option.map_some]
    have hlen : (d.take n).length = n := List.length_take_of_le hn
    have hrun := (yields_gets_full heol hlen hx).run (d.drop n)
    rw [List.take_append_drop] at hrun
    rw [hrun, hlen]
  · rw [if_neg hn]
    have hd : d.take n = d := List.take_of_length_le (by omega)
    rw [hd] at heol
    exact run_getsLoop_none heol (by omega) [] hx

end

/-! ## Iterations -/

/-- What the words of a command bring about. -/
def reaction (forked : Int32) : List Str → Except Violation (List ConsoleCall)
  | [] => .error (.unassigned 0)
  | [a] =>
    if a = str "execute" ∨ a = str "terminate" then .error (.unassigned 1)
    else .ok [.puts (str "unknown command\n") 16]
  | [a, b] => .ok (command a b forked)
  | _ => .error (.store 2)

theorem mainConsole_words (cmd : Str) (forked : Int32) :
    mainConsole cmd forked = reaction forked (words 0x20 cmd) := by
  rw [mainConsole_eq]
  rcases words 0x20 cmd with _ | ⟨a, _ | ⟨b, _ | ⟨c, ts⟩⟩⟩
  · rfl
  · exact execute_one a forked
  · exact execute_eq_command a b forked
  · rfl

/-- The iteration that has read the chunk `c`. -/
def iterate (c : List UInt8) (forked : Int32) : Except SessionError (List ConsoleCall) :=
  if 0 ∈ c then
    match reaction forked (words 0x20 (ofArray c)) with
    | .ok calls => .ok (.puts (str "console$ ") 7 :: calls)
    | .error v => .error (.violation v)
  else .error .unterminated

/-- What is behind the chunk in `cmd` does not matter. -/
theorem respond_chunk {d c rest : List UInt8} (h : chunk maxCmdChars d = some (c, rest))
    (cmd : CmdArray) (forked : Int32) :
    respond (c ++ cmd.toList.drop c.length) forked = iterate c forked := by
  unfold respond iterate
  simp only [mainConsole_words]
  unfold chunk at h
  split at h
  · -- a line, with its NUL
    obtain ⟨rfl, -⟩ : firstLine d ++ [0] = c ∧ _ := by simpa using h
    have hself : ofArray (firstLine d ++ [0]) = ofArray (firstLine d) := ofArray_zero_append _ []
    rcases hr : reaction forked (words 0x20 (ofArray (firstLine d))) with v | calls
    · simp [hself, ofArray_zero_append, hr]
    · simp [hself, ofArray_zero_append, hr]
  · split at h
    · -- a full array
      rename_i hlen
      obtain ⟨rfl, -⟩ : d.take maxCmdChars = c ∧ _ := by simpa using h
      have hfull : cmd.toList.drop (d.take maxCmdChars).length = [] :=
        List.drop_eq_nil_of_le (by rw [Vector.length_toList, List.length_take_of_le hlen])
      rcases hr : reaction forked (words 0x20 (ofArray (d.take maxCmdChars))) with v | calls
      · simp only [hfull, List.append_nil, hr]
      · simp only [hfull, List.append_nil, hr]
    · cases h

/-! ## Sessions -/

/-- `k` iterations from the iteration `i` on: what they call, up to an error, and
    what they leave of the stream; nothing if one of them waits. -/
def converse (forked : ℕ → Int32) (i : ℕ) :
    ℕ → List UInt8 → Option (Except SessionError (List (List ConsoleCall)) × List UInt8)
  | 0, d => some (.ok [], d)
  | k + 1, d => (chunk maxCmdChars d).bind fun (c, rest) =>
    match iterate c (forked i) with
    | .ok calls => (converse forked (i + 1) k rest).map fun (r, rest) => (r.map (calls :: ·), rest)
    | .error e => some (.error e, rest)

/-- **On any stream of bytes a session is a function of the chunks**: whatever
    `cmd` holds when an iteration starts, the calls are those of the words of its
    chunk, and it ends at the same error or waits at the same place. -/
theorem console_stream (stale : ℕ → CmdArray) (forked : ℕ → Int32) (k : ℕ) (d : List UInt8) :
    run (consoleSession stale forked 0 k) d =
      (converse forked 0 k d).map fun r => ⟨r.1, [], r.2⟩ := by
  generalize 0 = i
  induction k generalizing i d with
  | zero => rfl
  | succ k ih =>
    have hgets : run (gets (stale i).toList maxCmdChars) d = _ := run_gets (by simp)
    rw [consoleSession, run_bind, hgets, converse]
    rcases hchunk : chunk maxCmdChars d with _ | ⟨c, rest⟩
    · rfl
    simp only [Option.map_some, Option.bind_some, respond_chunk hchunk]
    rcases iterate c (forked i) with e | calls
    · rfl
    · show ((run (consoleSession stale forked (i + 1) k >>= fun r => .ret (r.map (calls :: ·)))
        rest).map (Exchange.after [])) = _
      rw [run_bind, ih]
      rcases converse forked (i + 1) k rest with _ | r
      · rfl
      · simp [Exchange.after]

end CcKernel
