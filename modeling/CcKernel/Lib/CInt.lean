/-
  Arithmetic on `int` as C defines it: an operation whose exact result is not an
  `int` has no result.

  Where it has one, it is the result of the machine, which wraps around.
-/
import Mathlib.Tactic

namespace CInt

/-- The `int` with a given value. -/
def ofInt (v : ℤ) : Option Int32 :=
  if -2 ^ 31 ≤ v ∧ v < 2 ^ 31 then some (Int32.ofInt v) else none

def neg (a : Int32) : Option Int32 := ofInt (-a.toInt)

def add (a b : Int32) : Option Int32 := ofInt (a.toInt + b.toInt)

def sub (a b : Int32) : Option Int32 := ofInt (a.toInt - b.toInt)

def mul (a b : Int32) : Option Int32 := ofInt (a.toInt * b.toInt)

/-- Division rounds towards zero. -/
def div (a b : Int32) : Option Int32 := if b = 0 then none else ofInt (a.toInt.tdiv b.toInt)

def mod (a b : Int32) : Option Int32 := if b = 0 then none else ofInt (a.toInt.tmod b.toInt)

/-! ## Exact results -/

variable {a b c : Int32} {v : ℤ}

theorem ofInt_eq_some : ofInt v = some c ↔ c.toInt = v := by
  unfold ofInt
  split
  · rename_i hv
    have hof := Int32.toInt_ofInt_of_le hv.1 hv.2
    rw [Option.some.injEq, ← Int32.toInt_inj, hof, eq_comm]
  · rename_i hv
    have hlo := c.le_toInt
    have hhi := c.toInt_lt
    refine iff_of_false (by simp) ?_
    rintro rfl
    exact hv ⟨hlo, hhi⟩

theorem ofInt_eq_none : ofInt v = none ↔ v < -2 ^ 31 ∨ 2 ^ 31 ≤ v := by
  unfold ofInt
  split <;> simp <;> omega

/-- There is a result if and only if it fits. -/
theorem exists_ofInt (h : -2 ^ 31 ≤ v ∧ v < 2 ^ 31) : ∃ c, ofInt v = some c ∧ c.toInt = v :=
  ⟨Int32.ofInt v, if_pos h, Int32.toInt_ofInt_of_le h.1 h.2⟩

theorem add_eq_some : add a b = some c ↔ c.toInt = a.toInt + b.toInt := ofInt_eq_some

theorem sub_eq_some : sub a b = some c ↔ c.toInt = a.toInt - b.toInt := ofInt_eq_some

theorem mul_eq_some : mul a b = some c ↔ c.toInt = a.toInt * b.toInt := ofInt_eq_some

theorem neg_eq_some : neg a = some c ↔ c.toInt = -a.toInt := ofInt_eq_some

/-- Only the least `int` has no negative. -/
theorem neg_eq_none : neg a = none ↔ a = Int32.minValue := by
  have hlo := a.le_toInt
  have hhi := a.toInt_lt
  rw [neg, ofInt_eq_none, ← Int32.toInt_inj, Int32.toInt_minValue]
  omega

/-! ## The machine -/

theorem eq_add (h : add a b = some c) : a + b = c := by
  rw [← Int32.toInt_inj, Int32.toInt_add, ← add_eq_some.1 h, Int32.toInt_bmod]

theorem eq_sub (h : sub a b = some c) : a - b = c := by
  rw [← Int32.toInt_inj, Int32.toInt_sub, ← sub_eq_some.1 h, Int32.toInt_bmod]

theorem eq_mul (h : mul a b = some c) : a * b = c := by
  rw [← Int32.toInt_inj, Int32.toInt_mul, ← mul_eq_some.1 h, Int32.toInt_bmod]

end CInt
