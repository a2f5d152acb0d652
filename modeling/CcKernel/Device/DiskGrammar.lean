/-
  What the disk driver takes for a reply.

  It tests the status and nothing after it: separators, digits and ends of line
  are counted, not looked at.
-/
import CcKernel.Device.DiskRetry

namespace CcKernel

open Duplex PyStr

variable {α : Type} {receive : Prog α} {fail : α} {line : List UInt8}

/-! ## The bytes of an attempt -/

theorem listens_geth : Listens pl011Geth := fun _ _ => trivial

theorem listens_reply (h : Listens receive) : Listens (reply receive) := by
  refine listens_geth.bind ?_
  intro r
  split
  · exact h.bind fun _ => trivial
  · exact receives_getc.listens.bind fun _ => trivial

/-- A status is two characters. -/
theorem yields_geth_inv {bs : List UInt8} {r : UInt8} (h : Yields pl011Geth bs r) :
    ∃ hi lo, bs = [hi, lo] ∧ r = hexPair hi lo := by
  obtain ⟨hi, lo, rfl⟩ := List.length_eq_two.1 (receives_geth.length h)
  exact ⟨hi, lo, rfl, h.unique (yields_hexPair hi lo)⟩

theorem yields_reply_inv {bs : List UInt8} {r : Option α} (h : Yields (reply receive) bs r) :
    (∃ hi lo c, ¬ (hi = chr '0' ∧ lo = chr '0') ∧ bs = [hi, lo, c] ∧ r = none) ∨
      ∃ cs a, bs = chr '0' :: chr '0' :: cs ∧ r = some a ∧ Yields receive cs a := by
  obtain ⟨ss, cs, s, rfl, hs, hcs⟩ := h.of_bind
  obtain ⟨hi, lo, rfl, rfl⟩ := yields_geth_inv hs
  by_cases h0 : hexPair hi lo = 0x00
  · right
    rw [if_pos h0] at hcs
    obtain ⟨rfl, rfl⟩ := hexPair_eq_zero.1 h0
    obtain ⟨cs, ds, a, rfl, ha, hr⟩ := hcs.of_bind
    rcases ds with _ | ⟨d, ds⟩
    · exact ⟨cs, a, by simp, hr.symm, ha⟩
    · exact hr.elim
  · left
    rw [if_neg h0] at hcs
    obtain ⟨cs, ds, c, rfl, hc, hr⟩ := hcs.of_bind
    obtain ⟨b, rfl⟩ := List.length_eq_one_iff.1 (receives_getc.length hc)
    rcases ds with _ | ⟨d, ds⟩
    · exact ⟨hi, lo, b, fun h => h0 (hexPair_eq_zero.2 h), rfl, hr.symm⟩
    · exact hr.elim

/-- A call that returns has failed as often as it tries, or has succeeded before
    that. -/
theorem run_retry_cases (hl : Listens receive) {k : ℕ} {d : List UInt8} {e : Exchange α}
    (h : run (retry fail (attempt line receive) k) d = some e) :
    ∃ fs : List (List UInt8), (∀ f ∈ fs, Yields (reply receive) f none) ∧
      (fs.length = k ∧ e.result = fail ∨
        fs.length < k ∧ ∃ acc, d = fs.flatten ++ acc ++ e.rest ∧
          Yields (reply receive) acc (some e.result)) := by
  induction k generalizing d e with
  | zero =>
    cases h
    exact ⟨[], by simp, Or.inl ⟨rfl, rfl⟩⟩
  | succ k ih =>
    rw [retry, attempt, bind_assoc, run_puts_bind] at h
    obtain ⟨e₁, h₁, rfl⟩ := Option.map_eq_some_iff.1 h
    rw [run_bind] at h₁
    obtain ⟨e₂, h₂, h₃⟩ := Option.bind_eq_some_iff.1 h₁
    obtain ⟨e₄, h₄, rfl⟩ := Option.map_eq_some_iff.1 h₃
    obtain ⟨bs, rfl, hbs, -⟩ := (listens_reply hl).run_some h₂
    rcases hr : e₂.result with _ | a
    · rw [hr] at h₄ hbs
      obtain ⟨fs, hfs, hcases⟩ := ih h₄
      refine ⟨bs :: fs, List.forall_mem_cons.2 ⟨hbs, hfs⟩, ?_⟩
      rcases hcases with ⟨hlen, hres⟩ | ⟨hlen, acc, hd, hacc⟩
      · exact Or.inl ⟨by rw [List.length_cons, hlen], hres⟩
      · refine Or.inr ⟨by rw [List.length_cons]; omega, acc, ?_, hacc⟩
        rw [hd]
        simp [Exchange.after]
    · rw [hr] at h₄ hbs
      cases h₄
      exact ⟨[], by simp, Or.inr ⟨Nat.zero_lt_succ k, bs, by simp [Exchange.after], hbs⟩⟩

/-- What is left after the first status 00 among the first `k`. -/
def afterOk : ℕ → List UInt8 → Option (List UInt8)
  | k + 1, hi :: lo :: d =>
    if hi = chr '0' ∧ lo = chr '0' then some d else d.tail?.bind (afterOk k)
  | _, _ => none

theorem afterOk_fails {fs : List (List UInt8)} (h : ∀ f ∈ fs, Yields (reply receive) f none)
    (k : ℕ) (d : List UInt8) : afterOk (fs.length + k) (fs.flatten ++ d) = afterOk k d := by
  induction fs with
  | nil => simp
  | cons f fs ih =>
    obtain ⟨hf, hfs⟩ := List.forall_mem_cons.1 h
    rcases yields_reply_inv hf with ⟨hi, lo, c, hne, rfl, -⟩ | ⟨cs, a, -, ha, -⟩
    · rw [List.length_cons, show fs.length + 1 + k = fs.length + k + 1 by omega]
      simp only [List.flatten_cons, List.cons_append, List.nil_append, afterOk, if_neg hne]
      exact ih hfs
    · cases ha

/-- The attempts before that status have failed. -/
theorem afterOk_some (receive : Prog α) {k : ℕ} {d t : List UInt8} (h : afterOk k d = some t) :
    ∃ fs : List (List UInt8), (∀ f ∈ fs, Yields (reply receive) f none) ∧ fs.length < k ∧
      d = fs.flatten ++ chr '0' :: chr '0' :: t := by
  induction k generalizing d with
  | zero => cases d <;> cases h
  | succ k ih =>
    rcases d with _ | ⟨hi, _ | ⟨lo, d⟩⟩
    · cases h
    · cases h
    · rw [afterOk] at h
      split at h
      · rename_i h0
        cases h
        exact ⟨[], by simp, Nat.zero_lt_succ k, by rw [h0.1, h0.2]; rfl⟩
      · rename_i h0
        rcases d with _ | ⟨c, d⟩
        · cases h
        · obtain ⟨fs, hfs, hlen, rfl⟩ := ih h
          exact ⟨[hi, lo, c] :: fs, List.forall_mem_cons.2 ⟨yields_reply_none receive h0 c, hfs⟩,
            Nat.succ_lt_succ hlen, rfl⟩

theorem afterOk_split {fs : List (List UInt8)} (h : ∀ f ∈ fs, Yields (reply receive) f none) {k : ℕ}
    (hk : fs.length < k) (t : List UInt8) :
    afterOk k (fs.flatten ++ chr '0' :: chr '0' :: t) = some t := by
  obtain ⟨j, rfl⟩ : ∃ j, k = fs.length + (j + 1) := ⟨k - fs.length - 1, by omega⟩
  rw [afterOk_fails h, afterOk, if_pos ⟨rfl, rfl⟩]

/-! ## What is accepted -/

/-- If the call succeeds on the bytes `d`, they are those of attempts that have
    failed, of one that has taken a reply in the grammar, and what it has not read. -/
def AcceptsOnly (p : Prog α) (ok : α → Prop) (receive : Prog α)
    (grammar : List UInt8 → α → Prop) (d : List UInt8) : Prop :=
  ∀ e, run p d = some e → ok e.result →
    ∃ (fs : List (List UInt8)) (acc : List UInt8), fs.length < diskRetry ∧
      (∀ f ∈ fs, Yields (reply receive) f none) ∧ Yields (reply receive) acc (some e.result) ∧
        d = fs.flatten ++ acc ++ e.rest ∧ grammar acc e.result

/-- Whatever `receive` takes after the first 00 is accepted. -/
theorem acceptsOnly_iff {P : α → Prop} {G : List UInt8 → α → Prop} (hl : Listens receive)
    (hfail : ¬ P fail) (line d : List UInt8) :
    AcceptsOnly (retry fail (attempt line receive) diskRetry) P receive G d ↔
      ∀ t, afterOk diskRetry d = some t → ∀ bs rest a, t = bs ++ rest → Yields receive bs a → P a →
        G (chr '0' :: chr '0' :: bs) a := by
  constructor
  · rintro h t ht bs rest a rfl hbs hok
    obtain ⟨fs, hfs, hlen, rfl⟩ := afterOk_some receive ht
    have hrun : run (retry fail (attempt line receive) diskRetry)
        (fs.flatten ++ chr '0' :: chr '0' :: (bs ++ rest)) =
        some ⟨a, copies fs.length line ++ line, rest⟩ := by
      obtain ⟨j, hj⟩ : ∃ j, diskRetry = fs.length + (j + 1) := ⟨diskRetry - fs.length - 1, by omega⟩
      rw [hj, run_retry_fails hfs, ← List.cons_append, ← List.cons_append,
        run_retry_some (yields_reply_ok hbs)]
      rfl
    obtain ⟨fs', acc, hlen', hfs', hacc, hd, hg⟩ := h _ hrun hok
    rcases yields_reply_inv hacc with ⟨_, _, _, -, -, hn⟩ | ⟨cs, a', rfl, ha', -⟩
    · cases hn
    · -- the bytes after the first 00 are the same either way
      have ht' := afterOk_split hfs' hlen' (cs ++ rest)
      rw [hd, List.append_assoc, List.cons_append, List.cons_append, ht'] at ht
      obtain rfl := List.append_cancel_right (Option.some.inj ht)
      exact hg
  · intro h e he hok
    obtain ⟨fs, hfs, ⟨-, hres⟩ | ⟨hlen, acc, rfl, hacc⟩⟩ := run_retry_cases hl he
    · exact absurd (hres ▸ hok) hfail
    · refine ⟨fs, acc, hlen, hfs, hacc, rfl, ?_⟩
      rcases yields_reply_inv hacc with ⟨_, _, _, -, -, hn⟩ | ⟨cs, a', rfl, ha', hcs⟩
      · cases hn
      · obtain rfl := Option.some.inj ha'
        have ht := afterOk_split hfs hlen (cs ++ e.rest)
        rw [List.append_assoc] at h
        exact h _ ht cs e.rest _ rfl hcs hok

/-! ### Replies with data -/

variable {n : ℕ} {x t : List UInt8}

/-- 00, a space, the digits of the data and a newline. -/
def dataLine (D : HexData n) : List UInt8 := chr '0' :: chr '0' :: D.body

/-- If there are enough bytes for a separator, `n` pairs of characters and an end of
    line, they are a space, hexadecimal digits and a newline. -/
def Framed (n : ℕ) (t : List UInt8) : Prop :=
  ∀ c s c' rest, t = c :: (s ++ c' :: rest) → s.length = 2 * n → c = space ∧ Hex n s ∧ c' = eol

theorem framed_bytes {m : ℕ} {bs : List UInt8} (h : bs.length = 1 + (m + 1)) :
    ∃ c s c', bs = c :: (s ++ [c']) ∧ s.length = m := by
  rcases bs with _ | ⟨c, bs⟩
  · simp at h
  · obtain ⟨s, c', rfl⟩ := (List.eq_nil_or_concat' bs).resolve_left (by
      rintro rfl
      simp at h)
    exact ⟨c, s, c', rfl, by simp at h; omega⟩

/-- The digits are those of some data exactly if they are digits. -/
theorem dataLine_eq_iff {c c' : UInt8} {s : List UInt8} :
    (∃ D : HexData n, chr '0' :: chr '0' :: c :: (s ++ [c']) = dataLine D) ↔
      c = space ∧ Hex n s ∧ c' = eol := by
  constructor
  · rintro ⟨D, hD⟩
    unfold dataLine HexData.body at hD
    simp only [List.cons.injEq, true_and] at hD
    obtain ⟨rfl, hs⟩ := hD
    obtain ⟨rfl, hc⟩ := List.append_inj' hs rfl
    exact ⟨rfl, hex_iff.2 ⟨D.data, D.decodes, D.length_data⟩, by simpa using hc⟩
  · rintro ⟨rfl, hs, rfl⟩
    obtain ⟨data, hdata, hlen⟩ := hex_iff.1 hs
    exact ⟨⟨s, data, hdata, hlen⟩, rfl⟩

/-- 00 and the digits of the data that `x` then holds. -/
def RdGrammar (x : List UInt8) (n : ℕ) (acc : List UInt8) (r : ℤ × List UInt8) : Prop :=
  ∃ D : HexData n, acc = dataLine D ∧ r = (diskSuccess, D.data ++ x.drop n)

def RdAccepts (a : UInt32) (x : List UInt8) (n : ℕ) (d : List UInt8) : Prop :=
  AcceptsOnly (diskRd a x n) (fun r => r.1 = diskSuccess) (rdReceive x n) (RdGrammar x n) d

theorem rdAccepts_iff (a : UInt32) (h : n ≤ x.length) (d : List UInt8) :
    RdAccepts a x n d ↔ ∀ t, afterOk diskRetry d = some t → Framed n t := by
  have hlisten : Listens (rdReceive x n) := (receives_rdReceive x n).listens
  have hfail : ¬ (diskFailure, x).1 = diskSuccess := show ¬ diskFailure = diskSuccess by decide
  unfold RdAccepts
  rw [diskRd_eq]
  refine (acceptsOnly_iff (P := fun r => r.1 = diskSuccess) hlisten hfail _ d).trans
    (forall_congr' fun t => imp_congr_right fun _ => ?_)
  constructor
  · rintro ht c s c' rest rfl hs
    have hy := yields_rdReceive h c c' hs
    obtain ⟨D, hD, -⟩ := ht _ rest _ (by simp) hy rfl
    exact dataLine_eq_iff.1 ⟨D, hD⟩
  · rintro ht bs rest r rfl hy -
    obtain ⟨c, s, c', rfl, hs⟩ := framed_bytes ((receives_rdReceive x n).length hy)
    obtain ⟨D, hD⟩ := dataLine_eq_iff.2 (ht c s c' rest (by simp) hs)
    refine ⟨D, hD, ?_⟩
    have hD' : s = D.digits := by
      simp only [dataLine, HexData.body, List.cons.injEq, true_and] at hD
      exact (List.append_inj' hD.2 rfl).1
    rw [hy.unique (yields_rdReceive h c c' hs), hD', hexPairs_of_unhexlify D.decodes]

/-! ### Replies without data -/

def WrAccepts (a : UInt32) (x : List UInt8) (n : ℕ) (d : List UInt8) : Prop :=
  AcceptsOnly (diskWr a x n) (fun r => r = diskSuccess) wrReceive
    (fun acc _ => acc = [chr '0', chr '0', eol]) d

theorem receives_wrReceive : Receives wrReceive 1 := fun _ => trivial

theorem wrAccepts_iff (a : UInt32) (h : n ≤ x.length) (d : List UInt8) :
    WrAccepts a x n d ↔ ∀ c rest, afterOk diskRetry d = some (c :: rest) → c = eol := by
  have hfail : ¬ diskFailure = diskSuccess := by decide
  unfold WrAccepts
  rw [diskWr_take a h]
  refine (acceptsOnly_iff (P := fun r => r = diskSuccess) receives_wrReceive.listens hfail _ d).trans
    ?_
  constructor
  · intro ht c rest hd
    have hc := ht _ hd [c] rest diskSuccess rfl rfl rfl
    simpa using hc
  · rintro ht _ hd bs rest r rfl hy -
    obtain ⟨c, rfl⟩ := List.length_eq_one_iff.1 (receives_wrReceive.length hy)
    rw [ht c rest hd]

/-! ### Queries -/

/-- The sign bit of the number at `i` is set: one character of its last byte is no
    digit, or the first of them is 8 at least. -/
def NegativeAt (s : List UInt8) (i : ℕ) : Prop :=
  xtoi (s.getD (2 * (i + 3) + 1) 0) = -1 ∨ xtoi (s.getD (2 * (i + 3)) 0) = -1 ∨
    8 ≤ xtoi (s.getD (2 * (i + 3)) 0)

theorem intAt_hexPairs_neg {s : List UInt8} {i : ℕ} (hs : s.length = 2 * 8) (hi : i ≤ 4) :
    intAt (hexPairs s) i < 0 ↔ NegativeAt s i := by
  rw [intAt_neg_iff, hexPairs_getD (by omega)]
  exact hexPair_negative

/-- A query fails if it returns a negative number. -/
def GetAccepts (i : ℕ) (d : List UInt8) : Prop :=
  AcceptsOnly (diskGet i) (fun r => 0 ≤ r) (getReceive i)
    (fun acc _ => ∃ D : HexData 8, acc = dataLine D) d

/-- The same as `Framed`, for a number that is not read as a failure. -/
def FramedAt (i : ℕ) (t : List UInt8) : Prop :=
  ∀ c s c' rest, t = c :: (s ++ c' :: rest) → s.length = 2 * 8 →
    NegativeAt s i ∨ c = space ∧ Hex 8 s ∧ c' = eol

theorem getAccepts_iff {i : ℕ} (hi : i ≤ 4) (d : List UInt8) :
    GetAccepts i d ↔ ∀ t, afterOk diskRetry d = some t → FramedAt i t := by
  have hlisten : Listens (getReceive i) := (receives_getReceive i).listens
  have hfail : ¬ 0 ≤ diskFailure := by decide
  unfold GetAccepts
  rw [diskGet_eq]
  refine (acceptsOnly_iff (P := fun r => 0 ≤ r) hlisten hfail _ d).trans
    (forall_congr' fun t => imp_congr_right fun _ => ?_)
  constructor
  · rintro ht c s c' rest rfl hs
    by_cases hneg : NegativeAt s i
    · exact Or.inl hneg
    · right
      have hr : 0 ≤ intAt (hexPairs s) i :=
        not_lt.1 fun h => hneg ((intAt_hexPairs_neg hs hi).1 h)
      exact dataLine_eq_iff.1 (ht _ rest _ (by simp) (yields_getReceive i c c' hs) hr)
  · rintro ht bs rest r rfl hy hr
    obtain ⟨c, s, c', rfl, hs⟩ := framed_bytes ((receives_getReceive i).length hy)
    rcases ht c s c' rest (by simp) hs with hneg | hframed
    · rw [hy.unique (yields_getReceive i c c' hs)] at hr
      exact absurd ((intAt_hexPairs_neg hs hi).2 hneg) (not_lt.2 hr)
    · exact dataLine_eq_iff.2 hframed

/-! ### The driver -/

/-- **What arrives is accepted only as a reply in the grammar exactly if, after the
    first status 00, it happens to be one**: the driver itself tests the status only. -/
theorem accepts_iff (a : UInt32) {x : List UInt8} {n : ℕ} (h : n ≤ x.length) (d : List UInt8) :
    (RdAccepts a x n d ↔ ∀ t, afterOk diskRetry d = some t → Framed n t) ∧
      (WrAccepts a x n d ↔ ∀ c rest, afterOk diskRetry d = some (c :: rest) → c = eol) ∧
      (GetAccepts 0 d ↔ ∀ t, afterOk diskRetry d = some t → FramedAt 0 t) ∧
      (GetAccepts 4 d ↔ ∀ t, afterOk diskRetry d = some t → FramedAt 4 t) :=
  ⟨rdAccepts_iff a h d, wrAccepts_iff a h d, getAccepts_iff (by decide) d,
    getAccepts_iff (by decide) d⟩

/-- A reply to a read of two bytes. -/
def twoBytes : List UInt8 := [48, 48, 32, 48, 53, 48, 54, 10]

theorem accepts_two :
    (RdAccepts 1 [5, 6] 2 twoBytes ↔ ∀ t, afterOk diskRetry twoBytes = some t → Framed 2 t) ∧
      (WrAccepts 1 [5, 6] 2 twoBytes ↔
        ∀ c rest, afterOk diskRetry twoBytes = some (c :: rest) → c = eol) ∧
      (GetAccepts 0 twoBytes ↔ ∀ t, afterOk diskRetry twoBytes = some t → FramedAt 0 t) ∧
      (GetAccepts 4 twoBytes ↔ ∀ t, afterOk diskRetry twoBytes = some t → FramedAt 4 t) :=
  accepts_iff 1 (by decide) twoBytes

/-- The line `00 zz` is read as a byte of ones. -/
theorem not_rdAccepts_zz :
    ¬ RdAccepts 0 [7] 1 [chr '0', chr '0', space, chr 'z', chr 'z', eol] := by
  intro h
  have hframed := (rdAccepts_iff 0 (by decide) _).1 h _ rfl
  have hhex : Hex 1 [chr 'z', chr 'z'] := (hframed space [chr 'z', chr 'z'] eol [] rfl rfl).2.1
  have hz := hhex.2 (chr 'z') (by simp)
  revert hz
  decide

end CcKernel
