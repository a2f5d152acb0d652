/-
  A file as an array of blocks.

  A file is a list of bytes that is read and written at an offset, as by `lseek`
  and then `read` or `write`.  Block `a` of length `L` stands at `a * L`.
-/
import Mathlib.Tactic

namespace Blocks

abbrev File := List UInt8

/-- `n` bytes from the offset on, fewer at the end of the file. -/
def readAt (f : File) (off n : ℕ) : File := (f.drop off).take n

/-- The bytes at the offset; a gap after the end of the file reads as zeros. -/
def writeAt (f : File) (off : ℕ) (bs : List UInt8) : File :=
  if bs = [] then f
  else (f ++ List.replicate (off - f.length) 0).take off ++ bs ++ f.drop (off + bs.length)

/-- Block `a`. -/
def block (L : ℕ) (f : File) (a : ℕ) : List UInt8 := readAt f (a * L) L

variable {f : File} {off L a : ℕ} {bs : List UInt8}

theorem writeAt_eq (h : off ≤ f.length) :
    writeAt f off bs = f.take off ++ bs ++ f.drop (off + bs.length) := by
  unfold writeAt
  split
  · subst bs; simp
  · rw [Nat.sub_eq_zero_of_le h, List.replicate_zero, List.append_nil]

theorem getElem?_writeAt (h : off ≤ f.length) (i : ℕ) :
    (writeAt f off bs)[i]? = if off ≤ i ∧ i < off + bs.length then bs[i - off]? else f[i]? := by
  have hlen : (f.take off).length = off := by rw [List.length_take, Nat.min_eq_left h]
  rw [writeAt_eq h, List.append_assoc]
  by_cases hlo : i < off
  · rw [List.getElem?_append_left (by omega), List.getElem?_take_of_lt hlo, if_neg (by omega)]
  · rw [List.getElem?_append_right (by omega), hlen]
    by_cases hhi : i < off + bs.length
    · rw [List.getElem?_append_left (by omega), if_pos (by omega)]
    · rw [List.getElem?_append_right (by omega), if_neg (by omega), List.getElem?_drop]
      congr 1
      omega

theorem length_writeAt (h : off + bs.length ≤ f.length) : (writeAt f off bs).length = f.length := by
  rw [writeAt_eq (by omega)]
  simp only [List.length_append, List.length_take, List.length_drop]
  omega

theorem le_length_writeAt (h : off ≤ f.length) : off ≤ (writeAt f off bs).length := by
  rw [writeAt_eq h]
  simp only [List.length_append, List.length_take]
  omega

theorem length_readAt (h : off + L ≤ f.length) : (readAt f off L).length = L := by
  simp only [readAt, List.length_take, List.length_drop]
  omega

theorem length_readAt_lt (h : f.length < off + L) (hL : 0 < L) : (readAt f off L).length < L := by
  simp only [readAt, List.length_take, List.length_drop]
  omega

theorem getElem?_block (i : ℕ) : (block L f a)[i]? = if i < L then f[a * L + i]? else none := by
  unfold block readAt
  split
  · rename_i hi
    rw [List.getElem?_take_of_lt hi, List.getElem?_drop]
  · rename_i hi
    exact List.getElem?_eq_none (by simp; omega)

/-- What is written to a block replaces its beginning, -/
theorem block_writeAt_self (hbs : bs.length ≤ L) (h : a * L ≤ f.length) :
    block L (writeAt f (a * L) bs) a = bs ++ (block L f a).drop bs.length := by
  apply List.ext_getElem?
  intro i
  rw [getElem?_block, getElem?_writeAt h]
  by_cases hi : i < bs.length
  · rw [if_pos (by omega), if_pos (by omega), List.getElem?_append_left hi, Nat.add_sub_cancel_left]
  · rw [List.getElem?_append_right (by omega), List.getElem?_drop, getElem?_block,
      Nat.add_sub_cancel' (by omega), if_neg (show ¬ (a * L ≤ a * L + i ∧ _) by omega)]

/-- and no other block changes. -/
theorem block_writeAt_other {b : ℕ} (hne : b ≠ a) (hbs : bs.length ≤ L) (h : a * L ≤ f.length) :
    block L (writeAt f (a * L) bs) b = block L f b := by
  apply List.ext_getElem?
  intro i
  rw [getElem?_block, getElem?_block, getElem?_writeAt h]
  split
  · rename_i hi
    refine if_neg ?_
    rintro ⟨hlo, hhi⟩
    rcases Nat.lt_or_gt_of_ne hne with hlt | hlt
    · have := Nat.mul_le_mul_right L (show b + 1 ≤ a from hlt)
      rw [Nat.succ_mul] at this
      omega
    · have := Nat.mul_le_mul_right L (show a + 1 ≤ b from hlt)
      rw [Nat.succ_mul] at this
      omega
  · rfl

/-- Of two beginnings of the same data the longer one stays. -/
theorem writeAt_writeAt {x : List UInt8} {k n : ℕ} (h : off ≤ f.length) :
    writeAt (writeAt f off (x.take k)) off (x.take n) = writeAt f off (x.take (max k n)) := by
  apply List.ext_getElem?
  intro i
  rw [getElem?_writeAt (le_length_writeAt h), getElem?_writeAt h, getElem?_writeAt h]
  simp only [List.length_take, List.getElem?_take]
  grind

end Blocks
