/-
  `itoa` (`user/libc.c`).

  `itoa?` has no result if C leaves an operation undefined; else it is the list
  of what is stored, in the order of the stores, by the offset from `r`.
-/
import CcKernel.User.Atoi

namespace CcKernel

open CStr Decimal

/-- A character stored at `r[ pos ]`. -/
structure CharStore where
  pos : ℤ
  char : UInt8
  deriving DecidableEq

/-- A quotient that is not zero has become smaller. -/
theorem natAbs_div_ten_lt {n n' : Int32} (h : CInt.div n 10 = some n') (hne : n' ≠ 0) :
    n'.toInt.natAbs < n.toInt.natAbs := by
  rw [CInt.div, if_neg (by decide)] at h
  have hv := CInt.ofInt_eq_some.1 h
  have habs : n'.toInt.natAbs = n.toInt.natAbs / 10 := by rw [hv, Int.natAbs_tdiv]; rfl
  have hpos : n'.toInt ≠ 0 := fun h0 => hne (Int32.toInt_inj.1 h0)
  omega

/-- `do { p++; n /= 10; } while( n )`: `p` after the loop. -/
def itoaCount (n : Int32) (p : ℤ) : Option ℤ :=
  match _h : CInt.div n 10 with
  | none => none
  | some n' => if _hn : n' = 0 then some (p + 1) else itoaCount n' (p + 1)
termination_by n.toInt.natAbs
decreasing_by exact natAbs_div_ten_lt _h _hn

/-- `do { *p-- = '0' + ( t % 10 ); t /= 10; } while( t )`: what is stored, and `p`
    after the loop. -/
def itoaEmit (t : Int32) (p : ℤ) : Option (List CharStore × ℤ) :=
  match CInt.mod t 10 >>= CInt.add 48, _h : CInt.div t 10 with
  | some c, some t' =>
    if _ht : t' = 0 then some ([⟨p, UInt8.ofInt c.toInt⟩], p - 1)
    else (itoaEmit t' (p - 1)).map fun e => (⟨p, UInt8.ofInt c.toInt⟩ :: e.1, e.2)
  | _, _ => none
termination_by t.toInt.natAbs
decreasing_by exact natAbs_div_ten_lt _h _ht

def itoa? (x : Int32) : Option (List CharStore) := do
  let (p, t) ← if x < 0 then (CInt.neg x).map fun t => (0 + 1, t) else some (0, x)
  let p ← itoaCount t p
  let (w, q) ← itoaEmit t (p - 1)
  return ⟨p, 0⟩ :: w ++ if x < 0 then [⟨q, 0x2D⟩] else []

/-! ## The loops -/

variable {t : Int32} {v : ℕ} {p : ℤ}

theorem div_ten (h : t.toInt = v) : ∃ t', CInt.div t 10 = some t' ∧ t'.toInt = (v / 10 : ℕ) := by
  have hhi := t.toInt_lt
  have hten : (10 : Int32).toInt = 10 := rfl
  have hdiv : t.toInt.tdiv (10 : Int32).toInt = (v / 10 : ℕ) := by
    rw [h, hten, Int.tdiv_eq_ediv_of_nonneg (by omega)]
    rfl
  rw [CInt.div, if_neg (by decide), hdiv]
  exact CInt.exists_ofInt (by omega)

/-- The character of the last digit. -/
theorem mod_ten (h : t.toInt = v) :
    ∃ c, CInt.mod t 10 >>= CInt.add 48 = some c ∧ UInt8.ofInt c.toInt = digitChar (v % 10) := by
  have hten : (10 : Int32).toInt = 10 := rfl
  have hzero : (48 : Int32).toInt = 48 := rfl
  have hmod : t.toInt.tmod (10 : Int32).toInt = (v % 10 : ℕ) := by
    rw [h, hten, Int.tmod_eq_emod_of_nonneg (by omega)]
    rfl
  obtain ⟨m, hm, hmv⟩ := CInt.exists_ofInt (v := ((v % 10 : ℕ) : ℤ)) (by omega)
  obtain ⟨c, hc, hcv⟩ := CInt.exists_ofInt (v := (48 : Int32).toInt + m.toInt) (by omega)
  refine ⟨c, ?_, ?_⟩
  · rw [CInt.mod, if_neg (by decide), hmod, hm]
    exact hc
  · have hnat : (((48 : ℤ) + (v % 10 : ℕ)) % 2 ^ 8).toNat = 48 + v % 10 := by omega
    rw [hcv, hmv, hzero, UInt8.ofInt, hnat, digitChar]

theorem itoaCount_eq (h : t.toInt = v) (p : ℤ) :
    itoaCount t p = some (p + (digits v).length) := by
  induction v using Nat.strong_induction_on generalizing t p with
  | _ v ih =>
    obtain ⟨t', hdiv, ht'⟩ := div_ten h
    have hzero : t' = 0 ↔ v < 10 := by
      rw [← Int32.toInt_inj, ht', Int32.toInt_zero]
      omega
    unfold itoaCount
    split
    · rename_i hnone
      rw [hdiv] at hnone
      cases hnone
    · rename_i n' hsome
      obtain rfl := Option.some.inj (hdiv.symm.trans hsome)
      by_cases hv : v < 10
      · rw [dif_pos (hzero.2 hv), digits_of_lt hv]
        rfl
      · have hlast : digits v = digits (v / 10) ++ [v % 10] := digits_of_le (by omega)
        rw [dif_neg (fun h0 => hv (hzero.1 h0)), ih (v / 10) (by omega) ht', hlast]
        simp
        omega

/-- Store the characters from `p` down. -/
def down : ℤ → List UInt8 → List CharStore
  | _, [] => []
  | p, c :: cs => ⟨p, c⟩ :: down (p - 1) cs

theorem down_append (p : ℤ) (cs ds : List UInt8) :
    down p (cs ++ ds) = down p cs ++ down (p - cs.length) ds := by
  induction cs generalizing p with
  | nil => simp [down]
  | cons c cs ih =>
    rw [List.cons_append, down, ih, down, List.cons_append, List.length_cons]
    congr 3
    push_cast
    omega

theorem itoaEmit_eq (h : t.toInt = v) (p : ℤ) :
    itoaEmit t p = some (down p ((digits v).map digitChar).reverse, p - (digits v).length) := by
  induction v using Nat.strong_induction_on generalizing t p with
  | _ v ih =>
    obtain ⟨t', hdiv, ht'⟩ := div_ten h
    obtain ⟨c, hmod, hc⟩ := mod_ten h
    have hzero : t' = 0 ↔ v < 10 := by
      rw [← Int32.toInt_inj, ht', Int32.toInt_zero]
      omega
    unfold itoaEmit
    split
    · rename_i c' t'' hc' hsome
      obtain rfl := Option.some.inj (hdiv.symm.trans hsome)
      obtain rfl := Option.some.inj (hmod.symm.trans hc')
      by_cases hv : v < 10
      · rw [dif_pos (hzero.2 hv), digits_of_lt hv, hc, Nat.mod_eq_of_lt hv]
        rfl
      · have hlast : digits v = digits (v / 10) ++ [v % 10] := digits_of_le (by omega)
        rw [dif_neg (fun h0 => hv (hzero.1 h0)), ih (v / 10) (by omega) ht', hlast, hc]
        simp [down]
        omega
    · rename_i hnone
      exact absurd hdiv (hnone _ _ hmod)

/-! ## What is stored -/

/-- The stores are those of the characters `cs` at `r[ 0 ]`, `r[ 1 ]`, … -/
def Writes (w : List CharStore) (cs : List UInt8) : Prop :=
  ∀ s, s ∈ w ↔ ∃ i, ∃ hi : i < cs.length, s = ⟨i, cs[i]⟩

/-- From the last character down. -/
def stores (cs : List UInt8) : List CharStore := down ((cs.length : ℤ) - 1) cs.reverse

theorem stores_concat (cs : List UInt8) (c : UInt8) :
    stores (cs ++ [c]) = ⟨cs.length, c⟩ :: stores cs := by
  unfold stores
  rw [List.reverse_concat, down]
  simp

theorem stores_cons (c : UInt8) (cs : List UInt8) :
    stores (c :: cs) = down cs.length cs.reverse ++ [⟨0, c⟩] := by
  unfold stores
  rw [List.reverse_cons, down_append]
  simp [down]

theorem writes_stores (cs : List UInt8) : Writes (stores cs) cs := by
  induction cs using List.reverseRecOn with
  | nil => simp [Writes, stores, down]
  | append_singleton cs c ih =>
    intro s
    rw [stores_concat, List.mem_cons, ih s]
    constructor
    · rintro (rfl | ⟨i, hi, rfl⟩)
      · exact ⟨cs.length, by simp, by simp⟩
      · exact ⟨i, by simp; omega, by rw [List.getElem_append_left hi]⟩
    · rintro ⟨i, hi, rfl⟩
      by_cases hlt : i < cs.length
      · exact Or.inr ⟨i, hlt, by rw [List.getElem_append_left hlt]⟩
      · left
        have hieq : i = cs.length := by simp at hi; omega
        subst hieq
        simp

theorem itoa?_nonneg {x : Int32} (h : 0 ≤ x.toInt) :
    itoa? x = some (stores ((numeral x.toInt).chars ++ [0])) := by
  have hx : ¬ x < 0 := by rw [Int32.lt_iff_toInt_lt, Int32.toInt_zero]; omega
  have hv : x.toInt = (x.toInt.natAbs : ℤ) := by omega
  unfold itoa?
  simp only [if_neg hx, bind, Option.bind_some, itoaCount_eq hv, itoaEmit_eq hv]
  rw [chars_numeral_of_nonneg h, stores_concat, stores]
  simp

theorem itoa?_neg {x t : Int32} (h : x.toInt < 0) (ht : CInt.neg x = some t) :
    itoa? x = some (stores ((numeral x.toInt).chars ++ [0])) := by
  have hx : x < 0 := by rw [Int32.lt_iff_toInt_lt, Int32.toInt_zero]; omega
  have hv : t.toInt = (x.toInt.natAbs : ℤ) := by rw [CInt.neg_eq_some.1 ht]; omega
  have hp (k : ℕ) : (0 : ℤ) + 1 + k - 1 = k := by omega
  unfold itoa?
  simp only [if_pos hx, ht, Option.map_some, bind, Option.bind_some, itoaCount_eq hv,
    itoaEmit_eq hv, hp]
  rw [chars_numeral_of_neg h, stores_concat, stores_cons]
  simp
  omega

/-- The decimal representation, and a NUL. -/
theorem itoa?_eq {x : Int32} (h : x ≠ Int32.minValue) :
    itoa? x = some (stores ((numeral x.toInt).chars ++ [0])) := by
  rcases ht : CInt.neg x with _ | t
  · exact absurd (CInt.neg_eq_none.1 ht) h
  · by_cases hx : x.toInt < 0
    · exact itoa?_neg hx ht
    · exact itoa?_nonneg (by omega)

theorem itoa?_minValue : itoa? Int32.minValue = none := by
  have hx : Int32.minValue < 0 := by decide
  unfold itoa?
  rw [if_pos hx, CInt.neg_eq_none.2 rfl]
  rfl

/-! ## Safety -/

def IsDigit (c : UInt8) : Prop := 48 ≤ c ∧ c ≤ 57

theorem isDigit_digitChar {d : ℕ} (h : d < 10) : IsDigit (digitChar d) := by
  have hv := toNat_digitChar h
  constructor
  · rw [UInt8.le_iff_toNat_le, hv]
    exact Nat.le_add_right 48 d
  · rw [UInt8.le_iff_toNat_le, hv]
    show 48 + d ≤ 57
    omega

theorem isDigit_of_mem {v : ℕ} {c : UInt8} (h : c ∈ (digits v).map digitChar) : IsDigit c := by
  obtain ⟨d, hd, rfl⟩ := List.mem_map.1 h
  exact isDigit_digitChar (digits_lt v d hd)

/-- The stores stay in `r[ 0 ]`, …, `r[ k ]`, where `k` is the length of the decimal
    representation; they put a NUL at `r[ k ]`, a minus at `r[ 0 ]` of a negative
    number, and digits elsewhere. -/
structure WritesSafely (x : Int32) (w : List CharStore) (k : ℕ) : Prop where
  length_eq : k = (numeral x.toInt).chars.length
  length_le : k ≤ 11
  within : ∀ s ∈ w, 0 ≤ s.pos ∧ s.pos ≤ k
  all : ∀ i : ℕ, i ≤ k → ∃ s ∈ w, s.pos = i
  nul : ∀ s ∈ w, s.pos = k → s.char = 0
  digit : ∀ s ∈ w, s.pos < k → ¬ (s.pos = 0 ∧ x < 0) → IsDigit s.char
  minus : ∀ s ∈ w, s.pos = 0 → x < 0 → s.char = 0x2D

/-- C defines the call, and it stores no more than it is to. -/
def SafeItoa (x : Int32) : Prop := ∃ w k, itoa? x = some w ∧ WritesSafely x w k

theorem length_digits_natAbs (x : Int32) : (digits x.toInt.natAbs).length ≤ 10 := by
  have hlo := x.le_toInt
  have hhi := x.toInt_lt
  exact length_digits_le (by decide) (by omega)

theorem length_chars_numeral (x : Int32) : (numeral x.toInt).chars.length ≤ 11 := by
  have hlen := length_digits_natAbs x
  by_cases hx : x.toInt < 0
  · rw [chars_numeral_of_neg hx, List.length_cons, List.length_map]
    omega
  · rw [chars_numeral_of_nonneg (by omega), List.length_map]
    omega

/-- A digit, but for the sign. -/
theorem isDigit_numeral {x : ℤ} {i : ℕ} (hi : i < (numeral x).chars.length)
    (hsign : ¬ (i = 0 ∧ x < 0)) : IsDigit (numeral x).chars[i] := by
  by_cases hx : x < 0
  · simp only [chars_numeral_of_neg hx] at hi ⊢
    obtain ⟨j, rfl⟩ := Nat.exists_eq_succ_of_ne_zero fun h0 => hsign ⟨h0, hx⟩
    exact isDigit_of_mem (List.getElem_mem (l := (digits x.natAbs).map digitChar) _)
  · simp only [chars_numeral_of_nonneg (Int.not_lt.1 hx)] at hi ⊢
    exact isDigit_of_mem (List.getElem_mem _)

theorem writesSafely {x : Int32} {w : List CharStore}
    (hw : Writes w ((numeral x.toInt).chars ++ [0])) :
    WritesSafely x w (numeral x.toInt).chars.length := by
  have hneg : x < 0 ↔ x.toInt < 0 := by rw [Int32.lt_iff_toInt_lt, Int32.toInt_zero]
  have hlen : ((numeral x.toInt).chars ++ [0]).length = (numeral x.toInt).chars.length + 1 := by
    simp
  constructor
  · rfl
  · exact length_chars_numeral x
  · intro s hs
    obtain ⟨i, hi, rfl⟩ := (hw s).1 hs
    rw [hlen] at hi
    constructor
    · exact Int.natCast_nonneg i
    · show (i : ℤ) ≤ _
      omega
  · intro i hi
    exact ⟨_, (hw _).2 ⟨i, by omega, rfl⟩, rfl⟩
  · intro s hs hpos
    obtain ⟨i, hi, rfl⟩ := (hw s).1 hs
    obtain rfl : i = (numeral x.toInt).chars.length := Int.ofNat_inj.1 hpos
    simp
  · intro s hs hpos hsign
    obtain ⟨i, hi, rfl⟩ := (hw s).1 hs
    have hi' : i < (numeral x.toInt).chars.length := Int.ofNat_lt.1 hpos
    show IsDigit ((numeral x.toInt).chars ++ [0])[i]
    rw [List.getElem_append_left hi']
    refine isDigit_numeral hi' ?_
    rintro ⟨h0, hx⟩
    exact hsign ⟨Int.ofNat_inj.2 h0, hneg.2 hx⟩
  · intro s hs hpos hx
    obtain ⟨i, hi, rfl⟩ := (hw s).1 hs
    obtain rfl : i = 0 := Int.ofNat_inj.1 hpos
    simp only [chars_numeral_of_neg (hneg.1 hx)]
    rfl

/-- **`itoa` is safe for every number but the least.** -/
theorem safeItoa_iff (x : Int32) : SafeItoa x ↔ x ≠ Int32.minValue := by
  constructor
  · rintro ⟨w, k, hw, -⟩ rfl
    rw [itoa?_minValue] at hw
    cases hw
  · intro hx
    exact ⟨_, _, itoa?_eq hx, writesSafely (writes_stores _)⟩

theorem not_safeItoa_minValue : ¬ SafeItoa Int32.minValue := by
  rintro ⟨w, k, hw, -⟩
  rw [itoa?_minValue] at hw
  cases hw

/-! ## There and back -/

/-- The memory after the stores, by the offset from `r`. -/
def applyStores (m : ℤ → UInt8) (w : List CharStore) : ℤ → UInt8 :=
  w.foldl (fun m s => Function.update m s.pos s.char) m

/-- The string at `r`. -/
def StringAt (m : ℤ → UInt8) (s : Str) : Prop :=
  0 ∉ s ∧ ∀ i : ℕ, ∀ hi : i < (s ++ [0]).length, m i = (s ++ [0])[i]

/-- All stores to a place store the same. -/
theorem applyStores_eq {w : List CharStore} {i : ℤ} {c : UInt8} (m : ℤ → UInt8)
    (hex : ∃ s ∈ w, s.pos = i) (hall : ∀ s ∈ w, s.pos = i → s.char = c) :
    applyStores m w i = c := by
  induction w using List.reverseRecOn with
  | nil => simp at hex
  | append_singleton w s ih =>
    unfold applyStores at ih ⊢
    rw [List.foldl_append, List.foldl_cons, List.foldl_nil]
    by_cases hs : s.pos = i
    · rw [hs, Function.update_self]
      exact hall s (by simp) hs
    · rw [Function.update_of_ne (Ne.symm hs)]
      refine ih ?_ fun t ht => hall t (List.mem_append_left _ ht)
      obtain ⟨t, ht, hti⟩ := hex
      rcases List.mem_append.1 ht with ht | ht
      · exact ⟨t, ht, hti⟩
      · obtain rfl := List.mem_singleton.1 ht
        exact absurd hti hs

theorem Writes.stringAt {w : List CharStore} {s : Str} (h : Writes w (s ++ [0])) (hs : 0 ∉ s)
    (m : ℤ → UInt8) : StringAt (applyStores m w) s := by
  refine ⟨hs, ?_⟩
  intro i hi
  refine applyStores_eq m ⟨_, (h _).2 ⟨i, hi, rfl⟩, rfl⟩ ?_
  intro t ht hti
  obtain ⟨j, hj, rfl⟩ := (h t).1 ht
  obtain rfl : j = i := Int.ofNat_inj.1 hti
  rfl

/-- `atoi` of the decimal representation. -/
theorem atoi_numeral (x : Int32) : atoi? (numeral x.toInt).chars = some x := by
  have hlo := x.le_toInt
  have hhi := x.toInt_lt
  obtain ⟨hv, hdef⟩ := atoi_chars (n := numeral x.toInt) (by rw [numeral_value]; exact ⟨hlo, hhi⟩)
  rw [numeral_value, Int32.toInt_inj] at hv
  have hlen : (numeral x.toInt).digits.length < 2 ^ 31 :=
    lt_of_le_of_lt (length_digits_natAbs x) (by decide)
  rw [hdef hlen, hv]

/-- **`atoi` reads what `itoa` writes, and `itoa` writes what `atoi` has read**, if it
    is a canonical numeral. -/
theorem itoa_atoi_inverse :
    (∀ x : Int32, x ≠ Int32.minValue → ∀ m, ∃ w s, itoa? x = some w ∧
      StringAt (applyStores m w) s ∧ atoi? s = some x) ∧
    ∀ n : Numeral, n.Canonical → Fits n.value → n.value ≠ -2 ^ 31 →
      ∃ x w, atoi? n.chars = some x ∧ itoa? x = some w ∧ Writes w (n.chars ++ [0]) := by
  constructor
  · intro x hx m
    exact ⟨_, _, itoa?_eq hx, (writes_stores _).stringAt (Numeral.zero_notMem_chars _) m,
      atoi_numeral x⟩
  · intro n hcan hfit hmin
    obtain ⟨x, -, hx⟩ := CInt.exists_ofInt hfit
    have hn : n = numeral x.toInt := by rw [hx]; exact hcan.eq_numeral
    have hne : x ≠ Int32.minValue := by
      rintro rfl
      exact hmin (by rw [← hx]; rfl)
    rw [hn]
    exact ⟨x, _, atoi_numeral x, itoa?_eq hne, writes_stores _⟩

theorem itoa_atoi_inverse_examples :
    (∃ w s, itoa? 7 = some w ∧ StringAt (applyStores (fun _ => 1) w) s ∧ atoi? s = some 7) ∧
      ∃ x w, atoi? (numeral (-12)).chars = some x ∧ itoa? x = some w ∧
        Writes w ((numeral (-12)).chars ++ [0]) :=
  ⟨itoa_atoi_inverse.1 7 (by decide) _, itoa_atoi_inverse.2 (numeral (-12)) (canonical_numeral _)
    (by rw [numeral_value]; unfold Fits; decide) (by rw [numeral_value]; decide)⟩

end CcKernel
