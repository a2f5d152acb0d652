/-
  Numbers as rows of fields of one width, added all at once.

  `field w j x` is the `j`-th field of `w` bits.  A sum is taken field by field
  as long as no field overflows (`NoCarry`).  The set bits of a row of fields are
  counted by adding neighbours: `gather_counted` is one step, from fields of
  width `w` to fields of width `2 * w`.
-/
import Mathlib.Tactic

namespace BitField

def field (w j x : ℕ) : ℕ := x / 2 ^ (w * j) % 2 ^ w

theorem field_and (w j x y : ℕ) : field w j (x &&& y) = field w j x &&& field w j y := by
  simp only [field, Nat.and_div_two_pow, Nat.and_mod_two_pow]

/-- What is below field `j + 1` is what is below field `j`, and field `j`. -/
theorem mod_succ (w j x : ℕ) :
    x % 2 ^ (w * (j + 1)) = x % 2 ^ (w * j) + 2 ^ (w * j) * field w j x := by
  rw [Nat.mul_succ, Nat.pow_add, Nat.mod_mul, field]

/-! ## Sums -/

/-- The fields of `a` and `b` below the `n`-th add up within their width. -/
def NoCarry (w n a b : ℕ) : Prop := ∀ j < n, field w j a + field w j b < 2 ^ w

/-- Nothing is carried into a field from below. -/
theorem NoCarry.mod_add_mod_lt {w n a b : ℕ} (h : NoCarry w n a b) {j : ℕ} (hj : j ≤ n) :
    a % 2 ^ (w * j) + b % 2 ^ (w * j) < 2 ^ (w * j) := by
  induction j with
  | zero => simp [Nat.mod_one]
  | succ j ih =>
    have hlow := ih (by omega)
    have hfield := h j hj
    have hhigh : 2 ^ (w * j) * (field w j a + field w j b + 1) ≤ 2 ^ (w * j) * 2 ^ w :=
      Nat.mul_le_mul_left _ hfield
    rw [mod_succ, mod_succ, Nat.mul_succ, Nat.pow_add]
    rw [Nat.mul_succ, Nat.mul_add] at hhigh
    omega

/-- **A sum without carries is the sum of the fields.** -/
theorem NoCarry.field_add {w n a b : ℕ} (h : NoCarry w n a b) {j : ℕ} (hj : j < n) :
    field w j (a + b) = field w j a + field w j b := by
  have hlow := h.mod_add_mod_lt hj.le
  rw [field, Nat.add_div_eq_of_add_mod_lt hlow]
  exact Nat.add_mod_of_add_mod_lt (h j hj)

theorem NoCarry.add_lt {w n a b : ℕ} (h : NoCarry w n a b) (ha : a < 2 ^ (w * n))
    (hb : b < 2 ^ (w * n)) : a + b < 2 ^ (w * n) := by
  have hlow := h.mod_add_mod_lt le_rfl
  rwa [Nat.mod_eq_of_lt ha, Nat.mod_eq_of_lt hb] at hlow

/-! ## Masks -/

/-- The lower half of each of `n` fields of width `2 * w`. -/
def LowHalves (w n m : ℕ) : Prop := ∀ j < n, field (2 * w) j m = 2 ^ w - 1

instance (w n m : ℕ) : Decidable (LowHalves w n m) :=
  inferInstanceAs (Decidable (∀ j < n, field (2 * w) j m = 2 ^ w - 1))

theorem field_and_low {w n m : ℕ} (h : LowHalves w n m) (x : ℕ) {j : ℕ} (hj : j < n) :
    field (2 * w) j (x &&& m) = field w (2 * j) x := by
  rw [field_and, h j hj, Nat.and_two_pow_sub_one_eq_mod, field, field,
    Nat.mod_mod_of_dvd _ (pow_dvd_pow 2 (Nat.le_mul_of_pos_left w two_pos))]
  congr 3
  ring

theorem field_shift_and_low {w n m : ℕ} (h : LowHalves w n m) (x : ℕ) {j : ℕ} (hj : j < n) :
    field (2 * w) j (x >>> w &&& m) = field w (2 * j + 1) x := by
  rw [field_and_low h _ hj, Nat.shiftRight_eq_div_pow, field, field, Nat.div_div_eq_div_mul,
    ← Nat.pow_add]
  congr 3
  ring

/-! ## Counting bits -/

/-- How many of the lowest `n` bits are set. -/
def ones (n x : ℕ) : ℕ := (List.range n).countP x.testBit

theorem ones_le (n x : ℕ) : ones n x ≤ n := by
  have h := List.countP_le_length (p := x.testBit) (l := List.range n)
  rwa [List.length_range] at h

theorem ones_add (n k x : ℕ) : ones (n + k) x = ones n x + ones k (x / 2 ^ n) := by
  have hshift : x.testBit ∘ (n + ·) = (x / 2 ^ n).testBit := by
    ext i
    rw [Nat.testBit_div_two_pow, Nat.add_comm]
    rfl
  rw [ones, List.range_add, List.countP_append, List.countP_map, hshift, ones, ones]

theorem ones_mod {n k : ℕ} (h : n ≤ k) (x : ℕ) : ones n (x % 2 ^ k) = ones n x := by
  apply List.countP_congr
  intro i hi
  have hik : i < k := (List.mem_range.1 hi).trans_le h
  rw [Nat.testBit_mod_two_pow, decide_eq_true hik, Bool.true_and]

theorem ones_one (x : ℕ) : ones 1 x = x % 2 := by
  rcases Nat.mod_two_eq_zero_or_one x with h | h
  · simp [ones, List.range_one, h]
  · simp [ones, List.range_one, h]

/-- The set bits of a field are those of its halves. -/
theorem ones_halves (w j x : ℕ) :
    ones (2 * w) (field (2 * w) j x) =
      ones w (field w (2 * j) x) + ones w (field w (2 * j + 1) x) := by
  have hlow : 2 * w * j = w * (2 * j) := by ring
  have hhigh : w * (2 * j + 1) = w * (2 * j) + w := by ring
  simp only [field, ones_mod le_rfl, hlow, hhigh]
  rw [Nat.pow_add, ← Nat.div_div_eq_div_mul, two_mul, ones_add]

/-- Each field of `y` is the number of set bits of that field of `x`. -/
def Counted (w n x y : ℕ) : Prop := ∀ j < n, field w j y = ones w (field w j x)

theorem counted_self (n x : ℕ) : Counted 1 n x x := by
  intro j _
  rw [ones_one, field, pow_one, Nat.mod_mod]

/-- **One step**: neighbouring counts are added, and no sum leaves its field. -/
theorem gather_counted {w n m x y : ℕ} (hm : LowHalves w n m) (h : Counted w (2 * n) x y) :
    NoCarry (2 * w) n (y &&& m) (y >>> w &&& m) ∧
      Counted (2 * w) n x ((y &&& m) + (y >>> w &&& m)) := by
  have hfields {j : ℕ} (hj : j < n) :
      field (2 * w) j (y &&& m) + field (2 * w) j (y >>> w &&& m) =
        ones (2 * w) (field (2 * w) j x) := by
    rw [field_and_low hm y hj, field_shift_and_low hm y hj, h _ (by omega), h _ (by omega),
      ones_halves]
  have hcarry : NoCarry (2 * w) n (y &&& m) (y >>> w &&& m) := by
    intro j hj
    rw [hfields hj]
    exact (ones_le _ _).trans_lt Nat.lt_two_pow_self
  refine ⟨hcarry, ?_⟩
  intro j hj
  rw [hcarry.field_add hj, hfields hj]

end BitField
