/-
  Byte strings as Python 2 has them: `strip`, `split`, `hexlify`, `unhexlify`
  and the format `'<l'` of `struct`, with the exceptions they raise.
-/
import Mathlib.Tactic
import Mathlib.Data.List.DropRight

namespace PyStr

abbrev Str := List UInt8

/-- The exceptions of the operations below, of indexing and of `os`. -/
inductive Exn where
  | indexError
  | typeError
  | structError
  | osError
  deriving DecidableEq, Repr

/-- The code of an ASCII character. -/
def chr (c : Char) : UInt8 := UInt8.ofNat c.toNat

def space : UInt8 := chr ' '

/-! ## `strip` and `split` -/

/-- `str.isspace`: tab, newline, vertical tab, form feed, return and space. -/
def isSpace (b : UInt8) : Bool := (9 ≤ b && b ≤ 13) || b = 32

def strip (s : Str) : Str := (s.dropWhile isSpace).rdropWhile isSpace

/-- `s.split(' ')` -/
def split (s : Str) : List Str := s.splitOn space

/-- `req[i]` -/
def item (req : List Str) (i : ℕ) : Except Exn Str :=
  match req[i]? with
  | some s => .ok s
  | none => .error .indexError

theorem strip_append_space {s : Str} {b : UInt8} (h : isSpace b) : strip (s ++ [b]) = strip s := by
  unfold strip
  rw [List.dropWhile_append]
  split
  · rename_i hs
    have hs : s.dropWhile isSpace = [] := by simpa using hs
    simp [h, hs]
  · rw [List.rdropWhile_concat_pos _ _ _ h]

theorem strip_eq_self {s t u : Str} {b c : UInt8} (hb : s = b :: t) (hbs : ¬ isSpace b)
    (hc : s = u ++ [c]) (hcs : ¬ isSpace c) : strip s = s := by
  have hdrop : s.dropWhile isSpace = s := by
    rw [hb]; exact List.dropWhile_cons_of_neg hbs
  unfold strip
  rw [hdrop, hc]
  exact List.rdropWhile_concat_neg _ _ _ hcs

/-- Fields without spaces are found again. -/
theorem split_intercalate {fs : List Str} (h : ∀ f ∈ fs, space ∉ f) (hfs : fs ≠ []) :
    split ([space].intercalate fs) = fs :=
  List.splitOn_intercalate space h hfs

/-! ## Hexadecimal -/

/-- The value of a hexadecimal digit. -/
def hexVal (b : UInt8) : Option ℕ :=
  if 48 ≤ b ∧ b ≤ 57 then some (b.toNat - 48)
  else if 65 ≤ b ∧ b ≤ 70 then some (b.toNat - 55)
  else if 97 ≤ b ∧ b ≤ 102 then some (b.toNat - 87)
  else none

theorem hexVal_lt {b : UInt8} {k : ℕ} (h : hexVal b = some k) : k < 16 := by
  unfold hexVal at h
  simp only [UInt8.le_iff_toNat_le, UInt8.reduceToNat] at h
  split_ifs at h <;> cases h <;> omega

theorem hexVal_eq_zero {b : UInt8} : hexVal b = some 0 ↔ b = chr '0' := by
  constructor
  · intro h
    unfold hexVal at h
    simp only [UInt8.le_iff_toNat_le, UInt8.reduceToNat] at h
    apply UInt8.toNat_inj.1
    show b.toNat = 48
    split_ifs at h <;> simp at h <;> omega
  · rintro rfl
    rfl

/-- The digit `hexlify` writes. -/
def hexDigit (k : ℕ) : UInt8 := UInt8.ofNat (if k < 10 then 48 + k else 87 + k)

def hexlify (s : Str) : Str := s.flatMap fun b => [hexDigit (b.toNat / 16), hexDigit (b.toNat % 16)]

def unhexlify : Str → Except Exn Str
  | [] => .ok []
  | [_] => .error .typeError
  | h :: l :: s =>
    match hexVal h, hexVal l with
    | some h, some l => (unhexlify s).map fun bs => UInt8.ofNat (16 * h + l) :: bs
    | _, _ => .error .typeError

/-- A decoded string starts with two digits. -/
theorem unhexlify_cons_cons {h l : UInt8} {s bs : Str} (hs : unhexlify (h :: l :: s) = .ok bs) :
    ∃ i j bs', hexVal h = some i ∧ hexVal l = some j ∧ unhexlify s = .ok bs' ∧
      bs = UInt8.ofNat (16 * i + j) :: bs' := by
  rw [unhexlify] at hs
  split at hs
  · rename_i i j hh hl
    rcases hu : unhexlify s with e | bs'
    · rw [hu] at hs
      cases hs
    · rw [hu] at hs
      cases hs
      exact ⟨i, j, bs', hh, hl, rfl, rfl⟩
  · cases hs

theorem hexlify_length (s : Str) : (hexlify s).length = 2 * s.length := by
  induction s with
  | nil => rfl
  | cons b s ih =>
    rw [hexlify, List.flatMap_cons, List.length_append, ← hexlify, ih, List.length_cons]
    simp only [List.length_cons, List.length_nil]
    omega

theorem ofNat_halves (b : UInt8) : UInt8.ofNat (16 * (b.toNat / 16) + b.toNat % 16) = b := by
  rw [Nat.div_add_mod]
  exact UInt8.ofNat_toNat

/-- What decodes digit by digit decodes as a whole. -/
theorem unhexlify_flatMap {enc : ℕ → UInt8} (henc : ∀ k < 16, hexVal (enc k) = some k) (s : Str) :
    unhexlify (s.flatMap fun b => [enc (b.toNat / 16), enc (b.toNat % 16)]) = .ok s := by
  induction s with
  | nil => rfl
  | cons b s ih =>
    have hb := b.toNat_lt
    have hhi := henc (b.toNat / 16) (by omega)
    have hlo := henc (b.toNat % 16) (by omega)
    simp only [List.flatMap_cons, List.cons_append, List.nil_append, unhexlify, hhi, hlo, ih,
      Except.map, ofNat_halves]

theorem hexVal_hexDigit : ∀ k < 16, hexVal (hexDigit k) = some k := by decide

theorem unhexlify_hexlify (s : Str) : unhexlify (hexlify s) = .ok s :=
  unhexlify_flatMap hexVal_hexDigit s

/-- `2 * n` hexadecimal digits. -/
def Hex (n : ℕ) (s : Str) : Prop := s.length = 2 * n ∧ ∀ b ∈ s, (hexVal b).isSome

theorem hex_cons_cons {n : ℕ} {h l : UInt8} {s : Str} :
    Hex (n + 1) (h :: l :: s) ↔ (hexVal h).isSome ∧ (hexVal l).isSome ∧ Hex n s := by
  simp only [Hex, List.length_cons, List.forall_mem_cons]
  constructor
  · rintro ⟨hlen, hh, hl, hs⟩
    exact ⟨hh, hl, by omega, hs⟩
  · rintro ⟨hh, hl, hlen, hs⟩
    exact ⟨by omega, hh, hl, hs⟩

/-- `unhexlify` takes pairs of digits and nothing else. -/
theorem hex_iff {n : ℕ} {s : Str} : Hex n s ↔ ∃ bs, unhexlify s = .ok bs ∧ bs.length = n := by
  induction n generalizing s with
  | zero =>
    constructor
    · rintro ⟨hlen, -⟩
      obtain rfl : s = [] := List.length_eq_zero_iff.1 hlen
      exact ⟨[], rfl, rfl⟩
    · rintro ⟨bs, hs, hbs⟩
      obtain rfl : bs = [] := List.length_eq_zero_iff.1 hbs
      rcases s with _ | ⟨h, _ | ⟨l, s⟩⟩
      · exact ⟨rfl, by simp⟩
      · simp [unhexlify] at hs
      · rw [unhexlify] at hs
        split at hs
        · cases hu : unhexlify s <;> rw [hu] at hs <;> simp [Except.map] at hs
        · simp at hs
  | succ n ih =>
    rcases s with _ | ⟨h, _ | ⟨l, s⟩⟩
    · simp [Hex, unhexlify]
    · simp [Hex, unhexlify]
      omega
    · rw [hex_cons_cons, ih, unhexlify]
      rcases hh : hexVal h with _ | vh
      · simp
      rcases hl : hexVal l with _ | vl
      · simp
      rcases hs : unhexlify s with e | bs
      · simp [Except.map]
      · simp [Except.map]

/-- No other character is among the digits. -/
theorem Hex.notMem {n : ℕ} {s : Str} (h : Hex n s) {b : UInt8} (hb : hexVal b = none) : b ∉ s := by
  intro hmem
  have hsome := h.2 b hmem
  rw [hb] at hsome
  cases hsome

/-! ## `struct` -/

/-- The four bytes of a number below 2^32, lowest first. -/
def le32 (k : ℕ) : Str :=
  [UInt8.ofNat k, UInt8.ofNat (k / 256), UInt8.ofNat (k / 65536), UInt8.ofNat (k / 16777216)]

/-- `struct.pack('<l', x)` -/
def packL (x : ℤ) : Except Exn Str :=
  if -2 ^ 31 ≤ x ∧ x < 2 ^ 31 then .ok (le32 (x % 2 ^ 32).toNat) else .error .structError

/-- `struct.unpack('<l', s)[0]`, the bytes being a signed number. -/
def unpackL : Str → Except Exn ℤ
  | [b₀, b₁, b₂, b₃] =>
    let k := b₀.toNat + 256 * b₁.toNat + 65536 * b₂.toNat + 16777216 * b₃.toNat
    .ok (if k < 2 ^ 31 then k else k - 2 ^ 32)
  | _ => .error .structError

/-- `'<l'` takes four bytes and nothing else. -/
theorem unpackL_ok_iff {bs : Str} : (∃ a, unpackL bs = .ok a) ↔ bs.length = 4 := by
  constructor
  · rintro ⟨a, h⟩
    unfold unpackL at h
    split at h
    · rfl
    · simp at h
  · intro h
    obtain ⟨b₀, b₁, b₂, b₃, rfl⟩ := List.length_eq_four.1 h
    exact ⟨_, rfl⟩

theorem packL_of_lt {k : ℕ} (h : k < 2 ^ 31) : packL k = .ok (le32 k) := by
  unfold packL
  rw [if_pos (by omega)]
  congr 2
  omega

theorem unpackL_le32 {k : ℕ} (h : k < 2 ^ 32) :
    unpackL (le32 k) = .ok (if k < 2 ^ 31 then (k : ℤ) else k - 2 ^ 32) := by
  have hk : k % 256 + 256 * (k / 256 % 256) + 65536 * (k / 65536 % 256) +
      16777216 * (k / 16777216 % 256) = k := by omega
  have hb (j : ℕ) : (UInt8.ofNat j).toNat = j % 256 := UInt8.toNat_ofNat'
  simp only [le32, unpackL, hb, hk]

end PyStr
