/-
  The Hamming weight of the user program `P3` (`user/P3.c`).
-/
import CcKernel.Lib.BitField

namespace CcKernel

open BitField

/-- `( x & m ) + ( ( x >> s ) & m )` -/
def addPairs (s m x : UInt32) : UInt32 := (x &&& m) + ((x >>> s) &&& m)

def weight (x : UInt32) : UInt32 :=
  let x := addPairs 1 0x55555555 x
  let x := addPairs 2 0x33333333 x
  let x := addPairs 4 0x0F0F0F0F x
  let x := addPairs 8 0x00FF00FF x
  let x := addPairs 16 0x0000FFFF x
  x

/-! ## The five steps -/

/-- The shift and the mask of each step. -/
def weightSteps : List (UInt32 × UInt32) :=
  [(1, 0x55555555), (2, 0x33333333), (4, 0x0F0F0F0F), (8, 0x00FF00FF), (16, 0x0000FFFF)]

theorem weight_eq (x : UInt32) :
    weight x = weightSteps.foldl (fun x a => addPairs a.1 a.2 x) x := rfl

/-- In none of the steps from `x` on is there a carry out of a field, which is twice as
    wide as the shift. -/
def NoCarries : List (UInt32 × UInt32) → UInt32 → Prop
  | [], _ => True
  | a :: as, x =>
    NoCarry (2 * a.1.toNat) (16 / a.1.toNat) (x &&& a.2).toNat ((x >>> a.1) &&& a.2).toNat ∧
      NoCarries as (addPairs a.1 a.2 x)

/-- From fields of width `w` on, the shift of each step is the width and its mask the
    lower halves of the fields of the next, up to the whole word. -/
def Doubling : ℕ → List (UInt32 × UInt32) → Prop
  | w, [] => w = 32
  | w, a :: as => a.1.toNat = w ∧ w < 32 ∧ 2 * w * (16 / w) = 32 ∧ LowHalves w (16 / w) a.2.toNat ∧
    Doubling (2 * w) as

theorem doubling_weightSteps : Doubling 1 weightSteps := by
  refine ⟨rfl, ?_, ?_, ?_, rfl, ?_, ?_, ?_, rfl, ?_, ?_, ?_, rfl, ?_, ?_, ?_, rfl, ?_, ?_, ?_, rfl⟩
  all_goals decide

variable {s m x y : UInt32} {w n : ℕ}

/-- The sum of a step is a sum of numbers. -/
theorem toNat_addPairs (hn : 2 * w * n = 32)
    (h : NoCarry (2 * w) n (x &&& m).toNat ((x >>> s) &&& m).toNat) :
    (addPairs s m x).toNat = (x &&& m).toNat + ((x >>> s) &&& m).toNat := by
  have hlt := h.add_lt (by rw [hn]; exact UInt32.toNat_lt _) (by rw [hn]; exact UInt32.toNat_lt _)
  rw [hn] at hlt
  rw [addPairs, UInt32.toNat_add, Nat.mod_eq_of_lt hlt]

theorem addPairs_counted (hs : s.toNat = w) (hw : w < 32) (hn : 2 * w * n = 32)
    (hm : LowHalves w n m.toNat) (h : Counted w (2 * n) x.toNat y.toNat) :
    NoCarry (2 * w) n (y &&& m).toNat ((y >>> s) &&& m).toNat ∧
      Counted (2 * w) n x.toNat (addPairs s m y).toNat := by
  have hlow : (y &&& m).toNat = y.toNat &&& m.toNat := UInt32.toNat_and y m
  have hhigh : ((y >>> s) &&& m).toNat = y.toNat >>> w &&& m.toNat := by
    rw [UInt32.toNat_and, UInt32.toNat_shiftRight, hs, Nat.mod_eq_of_lt hw]
  obtain ⟨hcarry, hcount⟩ := gather_counted hm h
  rw [← hlow, ← hhigh] at hcarry hcount
  rw [toNat_addPairs hn hcarry]
  exact ⟨hcarry, hcount⟩

/-- All steps, from fields that hold their counts. -/
theorem foldl_addPairs {as : List (UInt32 × UInt32)} (hd : Doubling w as) (hn : w * n = 32)
    (h : Counted w n x.toNat y.toNat) :
    NoCarries as y ∧ (as.foldl (fun y a => addPairs a.1 a.2 y) y).toNat = ones 32 x.toNat := by
  induction as generalizing w n y with
  | nil =>
    obtain rfl : w = 32 := hd
    obtain rfl : n = 1 := by omega
    have hfield (z : UInt32) : field 32 0 z.toNat = z.toNat := by
      rw [field, Nat.mul_zero, pow_zero, Nat.div_one, Nat.mod_eq_of_lt z.toNat_lt]
    have hcount := h 0 one_pos
    rw [hfield, hfield] at hcount
    exact ⟨trivial, hcount⟩
  | cons a as ih =>
    obtain ⟨hs, hw, hwn, hm, hd'⟩ := hd
    have hn2 : n = 2 * (16 / w) := by
      have hpos : 0 < w := by
        apply Nat.pos_of_ne_zero
        rintro rfl
        omega
      apply Nat.eq_of_mul_eq_mul_left hpos
      rw [hn, ← hwn]
      ring
    rw [hn2] at h
    obtain ⟨hcarry, hcount⟩ := addPairs_counted hs hw hwn hm h
    obtain ⟨hrest, hsum⟩ := ih hd' hwn hcount
    rw [NoCarries, hs]
    exact ⟨⟨hcarry, hrest⟩, hsum⟩

/-- **`weight` counts the set bits**, and in none of the five steps it consists of does a
    field of the sum overflow. -/
theorem weight_spec (x : UInt32) :
    (weight x).toNat = ones 32 x.toNat ∧
      weight x = weightSteps.foldl (fun x a => addPairs a.1 a.2 x) x ∧ NoCarries weightSteps x := by
  obtain ⟨hcarry, hsum⟩ := foldl_addPairs doubling_weightSteps rfl (counted_self 32 x.toNat)
  exact ⟨by rw [weight_eq, hsum], weight_eq x, hcarry⟩

example : weight 0xF000000F = 8 := by decide

end CcKernel
