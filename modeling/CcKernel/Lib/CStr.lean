/-
  C strings: `strcmp`, and the tokens of `strtok` for one delimiter.

  A string is the list of its characters before the final NUL.  `strtok` is a
  step that returns the next token and what the calls after it go on from.
-/
import Mathlib.Tactic
import Mathlib.Data.List.TakeWhile

namespace CStr

abbrev Str := List UInt8

/-- The string in an array: the characters before the first NUL. -/
def ofArray (x : List UInt8) : Str := x.takeWhile (· != 0)

theorem ofArray_append {s : Str} (hs : 0 ∉ s) (x : List UInt8) :
    ofArray (s ++ x) = s ++ ofArray x := by
  refine List.takeWhile_append_of_pos ?_
  intro c hc
  simpa using fun h : c = 0 => hs (h ▸ hc)

@[simp] theorem ofArray_zero (x : List UInt8) : ofArray (0 :: x) = [] := rfl

/-- What follows the NUL does not matter, -/
theorem ofArray_append_zero {s : Str} (hs : 0 ∉ s) (x : List UInt8) :
    ofArray (s ++ 0 :: x) = s := by
  rw [ofArray_append hs, ofArray_zero, List.append_nil]

/-- and there is one at the latest after the characters. -/
theorem ofArray_zero_append (s x : List UInt8) : ofArray (s ++ 0 :: x) = ofArray s := by
  induction s with
  | nil => rfl
  | cons c s ih =>
    unfold ofArray at *
    rw [List.cons_append, List.takeWhile_cons, List.takeWhile_cons, ih]

theorem ofArray_append_of_mem {s : List UInt8} (h : 0 ∈ s) (x : List UInt8) :
    ofArray (s ++ x) = ofArray s := by
  obtain ⟨u, w, rfl⟩ := List.append_of_mem h
  rw [List.append_assoc, List.cons_append, ofArray_zero_append, ofArray_zero_append]

theorem ofArray_eq_self {s : Str} (hs : 0 ∉ s) : ofArray s = s := by
  simpa [ofArray] using ofArray_append hs []

theorem zero_notMem_ofArray (x : List UInt8) : 0 ∉ ofArray x := by
  intro h
  simpa using List.mem_takeWhile_imp h

theorem mem_of_mem_ofArray {c : UInt8} {x : List UInt8} (h : c ∈ ofArray x) : c ∈ x :=
  (List.takeWhile_subset _) h

/-- Only the sign of the result is defined. -/
def strcmp : Str → Str → ℤ
  | [], [] => 0
  | [], _ :: _ => -1
  | _ :: _, [] => 1
  | a :: x, b :: y => if a = b then strcmp x y else if a < b then -1 else 1

theorem strcmp_eq_zero_iff {x y : Str} : 0 = strcmp x y ↔ x = y := by
  induction x generalizing y with
  | nil => cases y <;> simp [strcmp]
  | cons a x ih =>
    rcases y with _ | ⟨b, y⟩
    · simp [strcmp]
    · by_cases hab : a = b
      · simp [strcmp, hab, ih]
      · rw [strcmp, if_neg hab]
        split
        · simp [hab]
        · simp [hab]

/-- The next token, and the string after the delimiter that ends it. -/
def strtok (d : UInt8) (s : Str) : Option (Str × Str) :=
  match s.dropWhile (· == d) with
  | [] => none
  | c :: s => some ((c :: s).takeWhile (· != d), ((c :: s).dropWhile (· != d)).drop 1)

/-- The pieces between delimiters that are not empty. -/
def words (d : UInt8) (s : Str) : List Str := (s.splitOn d).filter (· ≠ [])

variable {d : UInt8}

@[simp] theorem words_nil : words d [] = [] := rfl

/-- A delimiter at the beginning does not matter. -/
theorem words_cons_self (s : Str) : words d (d :: s) = words d s := by
  simp [words, List.splitOn_cons_eq_if_modifyHead]

theorem words_dropWhile (s : Str) : words d (s.dropWhile (· == d)) = words d s := by
  induction s with
  | nil => rfl
  | cons c s ih =>
    by_cases hc : c = d
    · rw [List.dropWhile_cons_of_pos (by simp [hc]), ih, hc, words_cons_self]
    · rw [List.dropWhile_cons_of_neg (by simp [hc])]

/-- The first word reaches up to the first delimiter. -/
theorem words_token {c : UInt8} (hc : c ≠ d) (s : Str) :
    words d (c :: s) = (c :: s).takeWhile (· != d) ::
      words d (((c :: s).dropWhile (· != d)).drop 1) := by
  have htake : d ∉ (c :: s).takeWhile (· != d) := by
    intro h
    simpa using List.mem_takeWhile_imp h
  have hne : (c :: s).takeWhile (· != d) ≠ [] := by
    rw [List.takeWhile_cons_of_pos (by simpa using hc)]
    exact List.cons_ne_nil _ _
  have happ := List.takeWhile_append_dropWhile (p := (· != d)) (l := c :: s)
  rcases hdrop : (c :: s).dropWhile (· != d) with _ | ⟨b, rest⟩
  · rw [hdrop, List.append_nil] at happ
    rw [happ] at htake hne ⊢
    simp [words, List.splitOn_eq_singleton htake]
  · have hb : b = d := by
      have hhead := List.head_dropWhile_not (p := (· != d)) (l := c :: s) (by rw [hdrop]; simp)
      simpa [hdrop] using hhead
    rw [hdrop, hb] at happ
    conv_lhs => rw [← happ, words, List.splitOn_append_cons_self_of_not_mem htake]
    rw [List.filter_cons_of_pos (by simpa using hne), List.drop_one, List.tail_cons]
    rfl

/-! ### Words and the delimiters between them -/

theorem words_replicate_append (n : ℕ) (s : Str) :
    words d (List.replicate n d ++ s) = words d s := by
  induction n with
  | zero => rfl
  | succ n ih => rw [List.replicate_succ, List.cons_append, words_cons_self, ih]

theorem words_append {w : Str} (hw : d ∉ w) (hne : w ≠ []) (s : Str) :
    words d (w ++ d :: s) = w :: words d s := by
  rw [words, List.splitOn_append_cons_self_of_not_mem hw,
    List.filter_cons_of_pos (by simpa using hne)]
  rfl

/-- The last word. -/
theorem words_append_replicate {w : Str} (hw : d ∉ w) (hne : w ≠ []) (n : ℕ) :
    words d (w ++ List.replicate n d) = [w] := by
  rcases n with _ | n
  · rw [List.replicate_zero, List.append_nil, words, List.splitOn_eq_singleton hw,
      List.filter_cons_of_pos (by simpa using hne), List.filter_nil]
  · have h := words_replicate_append (d := d) n []
    rw [List.append_nil] at h
    rw [List.replicate_succ, words_append hw hne, h, words_nil]

theorem strtok_none {s : Str} (h : strtok d s = none) : words d s = [] := by
  unfold strtok at h
  split at h
  · rename_i hs
    rw [← words_dropWhile, hs, words_nil]
  · cases h

theorem strtok_some {s t rest : Str} (h : strtok d s = some (t, rest)) :
    words d s = t :: words d rest := by
  unfold strtok at h
  split at h
  · cases h
  · rename_i c s' hs
    cases h
    have hc : c ≠ d := by
      have hhead := List.head_dropWhile_not (p := (· == d)) (l := s) (by rw [hs]; simp)
      simpa [hs] using hhead
    rw [← words_dropWhile, hs, words_token hc]

/-- A token shortens the string. -/
theorem strtok_length {s t rest : Str} (h : strtok d s = some (t, rest)) :
    rest.length < s.length := by
  unfold strtok at h
  split at h
  · cases h
  · rename_i c s' hs
    cases h
    have hle : (c :: s').length ≤ s.length := hs ▸ (List.dropWhile_sublist _).length_le
    have hle' := ((c :: s').dropWhile_sublist (· != d)).length_le
    rw [List.length_drop]
    simp only [List.length_cons] at hle hle' ⊢
    omega

end CStr
