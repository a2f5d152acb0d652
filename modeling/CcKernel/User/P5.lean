/-
  The primality test of the user program `P5` (`user/P5.c`).

  Past the square root of 2^32 the bound `d * d <= x` of its loop wraps around.
-/
import CcKernel.Lib.Loop

namespace CcKernel

open Loop

/-- The loop for the divisor `d`. -/
def trialBody (x d : UInt32) : Turn UInt32 Int32 :=
  if d * d ≤ x then
    if x % d = 0 then .leave 0 else .next (d + 2)
  else .leave 1

/-- Nothing if the loop takes more than `k` turns. -/
def isPrime (k : ℕ) (x : UInt32) : Option Int32 :=
  if x &&& 1 = 0 ∨ x < 2 then some (if x = 2 then 1 else 0) else run (trialBody x) k 3

/-! ## One turn -/

variable {x d : UInt32}

/-- The number that the test gets wrong, the greatest prime below 2^32. -/
def lastPrime : ℕ := 4294967291

theorem mul_self_le_iff : d * d ≤ x ↔ d.toNat * d.toNat % 2 ^ 32 ≤ x.toNat := by
  rw [UInt32.le_iff_toNat_le, UInt32.toNat_mul]

theorem mod_eq_zero_iff : x % d = 0 ↔ d.toNat ∣ x.toNat := by
  rw [← UInt32.toNat_inj, UInt32.toNat_mod, Nat.dvd_iff_mod_eq_zero]
  rfl

/-- The divisors so far, all odd: none divides `x`, and none has ended the loop. -/
structure TrialInv (x d : UInt32) : Prop where
  odd : d.toNat % 2 = 1
  ge : 3 ≤ d.toNat
  le : d.toNat ≤ x.toNat
  not_dvd : ∀ e, 2 ≤ e → e < d.toNat → ¬ e ∣ x.toNat
  passed : ∀ e, e % 2 = 1 → 3 ≤ e → e < d.toNat → e * e % 2 ^ 32 ≤ x.toNat

theorem trialInv_start (hx : x.toNat % 2 = 1) (hge : 3 ≤ x.toNat) : TrialInv x 3 := by
  have hthree : (3 : UInt32).toNat = 3 := rfl
  constructor
  · rfl
  · exact le_rfl
  · exact hge
  · intro e he hlt hdvd
    obtain rfl : e = 2 := by omega
    omega
  · intro e _ he hlt
    omega

/-- Two further, which does not wrap around. -/
theorem TrialInv.next (h : TrialInv x d) (hx : x.toNat % 2 = 1) (hle : d * d ≤ x)
    (hmod : ¬ x % d = 0) : TrialInv x (d + 2) ∧ (d + 2).toNat = d.toNat + 2 := by
  have hodd := h.odd
  have hdle := h.le
  have hlt := x.toNat_lt
  have hndvd : ¬ d.toNat ∣ x.toNat := fun hd => hmod (mod_eq_zero_iff.2 hd)
  have hne : d.toNat ≠ x.toNat := fun heq => hndvd (heq ▸ dvd_rfl)
  have hadd : (d + 2).toNat = d.toNat + 2 := by
    rw [UInt32.toNat_add]
    exact Nat.mod_eq_of_lt (by show d.toNat + 2 < 2 ^ 32; omega)
  refine ⟨⟨?_, ?_, ?_, ?_, ?_⟩, hadd⟩
  · omega
  · have hge := h.ge
    omega
  · omega
  · intro e he hlt hdvd
    by_cases hed : e < d.toNat
    · exact h.not_dvd e he hed hdvd
    · -- `d` itself, or the even number after it
      rcases (show e = d.toNat ∨ e = d.toNat + 1 by omega) with rfl | rfl
      · exact hndvd hdvd
      · have heven : 2 ∣ x.toNat := (show 2 ∣ d.toNat + 1 by omega).trans hdvd
        omega
  · intro e heo hge hlt
    by_cases hed : e < d.toNat
    · exact h.passed e heo hge hed
    · obtain rfl : e = d.toNat := by omega
      exact mul_self_le_iff.1 hle

/-! ## The verdict -/

/-- No divisor below a number whose square is greater. -/
theorem prime_of_not_dvd {n k : ℕ} (hn : 2 ≤ n) (h : ∀ e, 2 ≤ e → e < k → ¬ e ∣ n)
    (hk : n < k * k) :
    n.Prime := by
  by_contra hp
  have hmin := Nat.minFac_prime (show n ≠ 1 by omega)
  have hsq := Nat.minFac_sq_le_self (by omega) hp
  have hlt : n.minFac < k := by nlinarith
  exact h _ hmin.two_le hlt (Nat.minFac_dvd n)

/-- The loop ends with 1 for a prime only. -/
theorem TrialInv.prime (h : TrialInv x d) (hle : ¬ d * d ≤ x) : x.toNat.Prime := by
  have hge := h.ge
  have hdle := h.le
  have hlt : x.toNat < d.toNat * d.toNat % 2 ^ 32 := not_le.1 fun hl => hle (mul_self_le_iff.2 hl)
  exact prime_of_not_dvd (by omega) h.not_dvd (lt_of_lt_of_le hlt (Nat.mod_le _ _))

/-- Below the square of 65535 the true square ends the loop, above it a number whose
    square is 2^32 - 7 does, as long as that is greater than `x`. -/
theorem reaches_itself {n : ℕ} (hodd : n % 2 = 1) (hge : 3 ≤ n) (hlt : n < 2 ^ 32)
    (hself : n * n % 2 ^ 32 ≤ n) (h : ∀ e, e % 2 = 1 → 3 ≤ e → e < n → e * e % 2 ^ 32 ≤ n) :
    2 ^ 32 - 7 ≤ n := by
  by_contra hn
  rcases (show n ≤ 65535 ∨ 65535 < n ∧ n < 4294836225 ∨ 4294836225 ≤ n by omega) with h1 | h1 | h1
  · have hsq : n * n < 2 ^ 32 := by nlinarith
    rw [Nat.mod_eq_of_lt hsq] at hself
    nlinarith
  · have hsq := h 65535 (by decide) (by decide) h1.1
    omega
  · have hroot := h 479772853 (by decide) (by decide) (by omega)
    omega

/-- Among the last numbers there is one prime. -/
theorem prime_last {n : ℕ} (hodd : n % 2 = 1) (hlt : n < 2 ^ 32) (hn : 2 ^ 32 - 7 ≤ n)
    (hp : n.Prime) : n = lastPrime := by
  rcases (show n = 4294967289 ∨ n = 4294967291 ∨ n = 4294967293 ∨ n = 4294967295 by omega) with
    rfl | rfl | rfl | rfl
  · exact absurd ((Nat.prime_dvd_prime_iff_eq Nat.prime_three hp).1 (by decide)) (by decide)
  · rfl
  · have hdvd : 9241 ∣ 4294967293 := by decide
    exact absurd (hp.eq_one_or_self_of_dvd 9241 hdvd) (by decide)
  · exact absurd ((Nat.prime_dvd_prime_iff_eq Nat.prime_three hp).1 (by decide)) (by decide)

/-- It ends with 0 for a number that is not prime, or for the last prime. -/
theorem TrialInv.not_prime (h : TrialInv x d) (hx : x.toNat % 2 = 1) (hle : d * d ≤ x)
    (hmod : x % d = 0) : ¬ x.toNat.Prime ∨ x.toNat = lastPrime := by
  have hdvd := mod_eq_zero_iff.1 hmod
  have hge := h.ge
  have hdle := h.le
  by_cases hp : x.toNat.Prime
  · -- the divisor of a prime is the prime itself
    right
    have hd : d.toNat = x.toNat := (hp.eq_one_or_self_of_dvd _ hdvd).resolve_left (by omega)
    have hself := mul_self_le_iff.1 hle
    have hpassed := h.passed
    rw [hd] at hself hpassed
    exact prime_last hx x.toNat_lt (reaches_itself hx (by omega) x.toNat_lt hself hpassed) hp
  · exact Or.inl hp

/-! ## The test -/

/-- What the loop has returned. -/
def Verdict (x : UInt32) (r : Int32) : Prop :=
  r = 1 ∧ x.toNat.Prime ∧ (∃ e, e % 2 = 1 ∧ x.toNat < e * e % 2 ^ 32) ∨
    r = 0 ∧ (¬ x.toNat.Prime ∨ x.toNat = lastPrime)

/-- The loop ends. -/
theorem exists_verdict (hx : x.toNat % 2 = 1) (hge : 3 ≤ x.toNat) :
    ∃ k r, run (trialBody x) k 3 = some r ∧ Verdict x r := by
  refine run_of_variant (I := TrialInv x) (fun d => x.toNat - d.toNat) ?_ ?_ (trialInv_start hx hge)
  · intro d d' h hb
    unfold trialBody at hb
    split_ifs at hb with hle hmod
    cases hb
    obtain ⟨hnext, hadd⟩ := h.next hx hle hmod
    have hdle := hnext.le
    exact ⟨hnext, by omega⟩
  · intro d r h hb
    unfold trialBody at hb
    split_ifs at hb with hle hmod
    · cases hb
      exact Or.inr ⟨rfl, h.not_prime hx hle hmod⟩
    · cases hb
      exact Or.inl ⟨rfl, h.prime hle, d.toNat, h.odd, not_le.1 fun hl => hle (mul_self_le_iff.2 hl)⟩

/-- The test returns, and not zero exactly for a prime. -/
def Decides (x : UInt32) : Prop :=
  ∃ k r, isPrime k x = some r ∧ (r ≠ 0 ↔ x.toNat.Prime)

theorem and_one_eq_zero : x &&& 1 = 0 ↔ x.toNat % 2 = 0 := by
  rw [← UInt32.toNat_inj, UInt32.toNat_and]
  show x.toNat &&& 1 = 0 ↔ _
  rw [Nat.and_one_is_mod]

/-- Even numbers and 1 are told without the loop. -/
theorem decides_of_short (h : x &&& 1 = 0 ∨ x < 2) : Decides x := by
  refine ⟨0, _, if_pos h, ?_⟩
  have htwo : x = 2 ↔ x.toNat = 2 := by rw [← UInt32.toNat_inj]; rfl
  rw [and_one_eq_zero, UInt32.lt_iff_toNat_lt] at h
  by_cases hx : x = 2
  · rw [if_pos hx, htwo.1 hx]
    exact iff_of_true (by decide) Nat.prime_two
  · rw [if_neg hx]
    refine iff_of_false (by decide) fun hp => ?_
    have h2 : x.toNat < 2 ∨ x.toNat % 2 = 0 := h.symm
    rcases h2 with h2 | h2
    · exact absurd hp.two_le (by omega)
    · exact hx (htwo.2 ((Nat.prime_dvd_prime_iff_eq Nat.prime_two hp).1 (by omega)).symm)

theorem isPrime_eq_run (h : ¬ (x &&& 1 = 0 ∨ x < 2)) (k : ℕ) :
    isPrime k x = run (trialBody x) k 3 := if_neg h

/-- The others are odd and at least 3. -/
theorem odd_of_not_short (h : ¬ (x &&& 1 = 0 ∨ x < 2)) : x.toNat % 2 = 1 ∧ 3 ≤ x.toNat := by
  rw [and_one_eq_zero, UInt32.lt_iff_toNat_lt] at h
  have htwo : (2 : UInt32).toNat = 2 := rfl
  omega

theorem noDivisor_lastPrime :
    ((List.range 32768).all fun k => lastPrime % (2 * k + 3) != 0) = true := by
  decide +kernel

theorem prime_lastPrime : lastPrime.Prime := by
  have hodd : lastPrime % 2 = 1 := by decide
  refine prime_of_not_dvd (k := 65537) (by decide) ?_ (by decide)
  intro e he hlt hdvd
  rcases Nat.mod_two_eq_zero_or_one e with heven | heodd
  · have h2 : 2 ∣ lastPrime := (Nat.dvd_of_mod_eq_zero heven).trans hdvd
    omega
  · obtain ⟨k, rfl⟩ : ∃ k, e = 2 * k + 3 := ⟨(e - 3) / 2, by omega⟩
    have hall := List.all_eq_true.1 noDivisor_lastPrime k (List.mem_range.2 (by omega))
    have hzero := Nat.mod_eq_zero_of_dvd hdvd
    rw [hzero] at hall
    exact absurd hall (by decide)

/-- No odd square is greater modulo 2^32, so the loop goes on to the number itself. -/
theorem not_decides_lastPrime (h : x.toNat = lastPrime) : ¬ Decides x := by
  have hval : x.toNat = 4294967291 := h
  have hshort : ¬ (x &&& 1 = 0 ∨ x < 2) := by
    have htwo : (2 : UInt32).toNat = 2 := rfl
    rw [and_one_eq_zero, UInt32.lt_iff_toNat_lt]
    omega
  obtain ⟨hx, hge⟩ := odd_of_not_short hshort
  obtain ⟨k, r, hr, hv⟩ := exists_verdict hx hge
  rintro ⟨k', r', hr', hiff⟩
  rw [isPrime_eq_run hshort] at hr'
  obtain rfl := run_unique hr hr'
  rcases hv with ⟨-, -, e, he, hlt⟩ | ⟨rfl, -⟩
  · have hsq : e * e % 8 = 1 := by
      have he8 : e % 8 = 1 ∨ e % 8 = 3 ∨ e % 8 = 5 ∨ e % 8 = 7 := by omega
      rcases he8 with h8 | h8 | h8 | h8 <;> rw [Nat.mul_mod, h8]
    omega
  · exact absurd rfl (hiff.2 (h ▸ prime_lastPrime))

/-- **The loop ends for every argument, and `is_prime` decides primality of all but
    one**: it takes the greatest prime below 2^32 for a composite number. -/
theorem decides_iff (x : UInt32) :
    (∃ k r, isPrime k x = some r) ∧ (Decides x ↔ x ≠ 4294967291) := by
  have hlast : x = 4294967291 ↔ x.toNat = lastPrime := by rw [← UInt32.toNat_inj]; rfl
  by_cases hshort : x &&& 1 = 0 ∨ x < 2
  · refine ⟨⟨0, _, if_pos hshort⟩, iff_of_true (decides_of_short hshort) ?_⟩
    rintro rfl
    revert hshort
    decide
  · obtain ⟨hx, hge⟩ := odd_of_not_short hshort
    obtain ⟨k, r, hr, hv⟩ := exists_verdict hx hge
    rw [← isPrime_eq_run hshort] at hr
    refine ⟨⟨k, r, hr⟩, ?_⟩
    constructor
    · rintro hd hxl
      exact not_decides_lastPrime (hlast.1 hxl) hd
    · intro hne
      refine ⟨k, r, hr, ?_⟩
      rcases hv with ⟨rfl, hp, -⟩ | ⟨rfl, hnp | heq⟩
      · exact iff_of_true (by decide) hp
      · exact iff_of_false (by decide) hnp
      · exact absurd (hlast.2 heq) hne

theorem not_decides_4294967291 : ¬ Decides 4294967291 := not_decides_lastPrime rfl

end CcKernel
