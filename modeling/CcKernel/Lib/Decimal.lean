/-
  Decimal numerals as strings of characters.
-/
import Mathlib.Tactic
import Mathlib.Data.Nat.Digits.Lemmas

namespace Decimal

/-! ## Digits -/

/-- The character of a digit. -/
def digitChar (d : ℕ) : UInt8 := UInt8.ofNat (48 + d)

theorem toNat_digitChar {d : ℕ} (h : d < 10) : (digitChar d).toNat = 48 + d := by
  rw [digitChar, UInt8.toNat_ofNat']
  omega

/-- The value of digits, highest first. -/
def value (ds : List ℕ) : ℕ := Nat.ofDigits 10 ds.reverse

@[simp] theorem value_nil : value [] = 0 := rfl

@[simp] theorem value_concat (ds : List ℕ) (d : ℕ) : value (ds ++ [d]) = 10 * value ds + d := by
  rw [value, List.reverse_concat, Nat.ofDigits_cons, value]
  omega

/-- More digits, more value. -/
theorem value_le_append (ds es : List ℕ) : value ds ≤ value (ds ++ es) := by
  induction es using List.reverseRecOn with
  | nil => rw [List.append_nil]
  | append_singleton es e ih =>
    rw [← List.append_assoc, value_concat]
    omega

/-- The digits of a number, without leading zeros. -/
def digits (n : ℕ) : List ℕ := if n = 0 then [0] else (Nat.digits 10 n).reverse

theorem digits_ne_nil (n : ℕ) : digits n ≠ [] := by
  unfold digits
  split
  · simp
  · rename_i hn
    simpa [Nat.digits_ne_nil_iff_ne_zero] using hn

theorem digits_lt (n : ℕ) : ∀ d ∈ digits n, d < 10 := by
  intro d hd
  unfold digits at hd
  split at hd
  · obtain rfl := List.mem_singleton.1 hd
    decide
  · exact Nat.digits_lt_base (by decide) (List.mem_reverse.1 hd)

@[simp] theorem value_digits (n : ℕ) : value (digits n) = n := by
  unfold digits value
  split
  · rename_i hn
    rw [hn]
    rfl
  · rw [List.reverse_reverse, Nat.ofDigits_digits]

/-- The last digit and those before it. -/
theorem digits_of_lt {n : ℕ} (h : n < 10) : digits n = [n] := by
  unfold digits
  split
  · rename_i hn
    rw [hn]
  · rename_i hn
    rw [Nat.digits_of_lt 10 n hn h]
    rfl

theorem digits_of_le {n : ℕ} (h : 10 ≤ n) : digits n = digits (n / 10) ++ [n % 10] := by
  have hdiv : n / 10 ≠ 0 := by omega
  rw [digits, digits, if_neg (by omega), if_neg hdiv, Nat.digits_def' (by decide) (by omega),
    List.reverse_cons]

/-- Digits without a leading zero are the digits of their value. -/
theorem digits_value {ds : List ℕ} (hlt : ∀ d ∈ ds, d < 10) (hhead : ds.head? ≠ some 0)
    (hne : ds ≠ []) : digits (value ds) = ds := by
  have hrev : Nat.digits 10 (value ds) = ds.reverse := by
    refine Nat.digits_ofDigits 10 (by decide) _ (fun d hd => hlt d (List.mem_reverse.1 hd)) ?_
    intro _ h0
    rw [List.getLast_reverse] at h0
    exact hhead (by rw [List.head?_eq_some_head hne, h0])
  have hv : value ds ≠ 0 := by
    intro h0
    rw [h0, Nat.digits_zero] at hrev
    exact hne (List.reverse_eq_nil_iff.1 hrev.symm)
  rw [digits, if_neg hv, hrev, List.reverse_reverse]

theorem length_digits_le {n k : ℕ} (hk : 1 ≤ k) (h : n < 10 ^ k) : (digits n).length ≤ k := by
  unfold digits
  split
  · simpa using hk
  · rw [List.length_reverse]
    exact (Nat.digits_length_le_iff (by decide) n).2 h

/-! ## Numerals -/

inductive Sign where
  | none
  | plus
  | minus
  deriving DecidableEq

def Sign.chars : Sign → List UInt8
  | none => []
  | plus => [43]
  | minus => [45]

/-- An optional sign and at least one digit. -/
structure Numeral where
  sign : Sign
  digits : List ℕ
  ne_nil : digits ≠ []
  digit_lt : ∀ d ∈ digits, d < 10

namespace Numeral

def chars (n : Numeral) : List UInt8 := n.sign.chars ++ n.digits.map digitChar

/-- There is no NUL in a numeral. -/
theorem zero_notMem_chars (n : Numeral) : 0 ∉ n.chars := by
  intro h0
  rcases List.mem_append.1 h0 with h0 | h0
  · revert h0
    cases n.sign <;> decide
  · obtain ⟨d, hd, h0⟩ := List.mem_map.1 h0
    have hd := toNat_digitChar (n.digit_lt d hd)
    rw [h0] at hd
    exact absurd hd (by simp; omega)

def value (n : Numeral) : ℤ :=
  if n.sign = .minus then -(Decimal.value n.digits : ℤ) else Decimal.value n.digits

/-- No leading zero, no plus and no negative zero. -/
structure Canonical (n : Numeral) : Prop where
  sign_ne : n.sign ≠ .plus
  head : n.digits.head? = some 0 → n.digits = [0]
  zero : n.digits = [0] → n.sign = .none

end Numeral

/-- The decimal representation of a number. -/
def numeral (x : ℤ) : Numeral where
  sign := if x < 0 then .minus else .none
  digits := digits x.natAbs
  ne_nil := digits_ne_nil _
  digit_lt := digits_lt _

theorem numeral_value (x : ℤ) : (numeral x).value = x := by
  unfold Numeral.value numeral
  by_cases hx : x < 0
  · simp only [if_pos hx, value_digits, if_true]
    omega
  · simp only [if_neg hx, value_digits, reduceCtorEq, if_false]
    omega

theorem chars_numeral_of_nonneg {x : ℤ} (h : 0 ≤ x) :
    (numeral x).chars = (digits x.natAbs).map digitChar := by
  unfold Numeral.chars numeral
  rw [if_neg (by omega)]
  rfl

theorem chars_numeral_of_neg {x : ℤ} (h : x < 0) :
    (numeral x).chars = 45 :: (digits x.natAbs).map digitChar := by
  unfold Numeral.chars numeral
  rw [if_pos h]
  rfl

/-- Only zero starts with a zero. -/
theorem digits_eq_zero {v : ℕ} (h : (digits v).head? = some 0) : v = 0 := by
  by_contra hv
  have hne : Nat.digits 10 v ≠ [] := by simpa [Nat.digits_ne_nil_iff_ne_zero] using hv
  rw [digits, if_neg hv, List.head?_reverse, List.getLast?_eq_some_getLast hne] at h
  exact Nat.getLast_digit_ne_zero 10 hv (Option.some.inj h)

theorem canonical_numeral (x : ℤ) : (numeral x).Canonical := by
  constructor
  · show (if x < 0 then Sign.minus else Sign.none) ≠ .plus
    split <;> decide
  · intro h
    have hx : x.natAbs = 0 := digits_eq_zero h
    show digits x.natAbs = [0]
    rw [hx]
    rfl
  · intro h
    have hx : x.natAbs = 0 := digits_eq_zero (show (digits x.natAbs).head? = some 0 by
      rw [show digits x.natAbs = [0] from h]
      rfl)
    exact if_neg (by omega)

/-- **A number has one canonical numeral.** -/
theorem Numeral.Canonical.eq_numeral {n : Numeral} (h : n.Canonical) : n = numeral n.value := by
  obtain ⟨sign, ds, hne, hlt⟩ := n
  obtain ⟨hplus, hhead, hzero⟩ := h
  have hdigits : Decimal.digits (Decimal.value ds) = ds := by
    by_cases h0 : ds.head? = some 0
    · have hds : ds = [0] := hhead h0
      rw [hds]
      rfl
    · exact digits_value hlt h0 hne
  have habs : (Numeral.value ⟨sign, ds, hne, hlt⟩).natAbs = Decimal.value ds := by
    unfold Numeral.value
    split <;> simp
  have hsign : (numeral (Numeral.value ⟨sign, ds, hne, hlt⟩)).sign = sign := by
    unfold numeral Numeral.value
    cases sign with
    | none => simp
    | plus => exact absurd rfl hplus
    | minus =>
      have hpos : Decimal.value ds ≠ 0 := by
        intro h0
        have hds : ds = [0] := by
          rw [← hdigits, h0]
          rfl
        exact absurd (hzero hds) (show ¬ Sign.minus = Sign.none by decide)
      simp
      omega
  unfold numeral at hsign ⊢
  simp only [Numeral.mk.injEq]
  exact ⟨hsign.symm, by rw [habs, hdigits]⟩

end Decimal
