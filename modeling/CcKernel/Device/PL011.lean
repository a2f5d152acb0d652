/-
  The UART driver (`device/PL011.c`): bytes, and bytes as two hexadecimal
  digits, sent and received on `UART2`.

  All calls are blocking, so a call is one `put` or one `get` of a program.
-/
import CcKernel.Lib.Duplex
import CcKernel.Lib.PyStr

namespace CcKernel

open Duplex PyStr

def xtoi (x : UInt8) : ℤ :=
  if chr '0' ≤ x ∧ x ≤ chr '9' then 0 + (x.toNat - (chr '0').toNat)
  else if chr 'a' ≤ x ∧ x ≤ chr 'f' then 10 + (x.toNat - (chr 'a').toNat)
  else if chr 'A' ≤ x ∧ x ≤ chr 'F' then 10 + (x.toNat - (chr 'A').toNat)
  else -1

def itox (x : ℤ) : UInt8 :=
  if 0 ≤ x ∧ x ≤ 9 then UInt8.ofInt ((chr '0').toNat + (x - 0))
  else if 10 ≤ x ∧ x ≤ 15 then UInt8.ofInt ((chr 'A').toNat + (x - 10))
  else UInt8.ofInt (-1)

def pl011Putc (x : UInt8) : Prog Unit := .put x (.ret ())

def pl011Getc : Prog UInt8 := .get .ret

def pl011Puth (x : UInt8) : Prog Unit := do
  pl011Putc (itox ((x >>> 4) &&& 0xF).toNat)
  pl011Putc (itox ((x >>> 0) &&& 0xF).toNat)

/-- The value is an `int` until it is assigned to `r`. -/
def pl011Geth : Prog UInt8 := do
  let r := UInt8.ofInt (xtoi (← pl011Getc) * 2 ^ 4)
  return r ||| UInt8.ofInt (xtoi (← pl011Getc) * 2 ^ 0)

/-! ## What is sent -/

/-- A byte in upper-case hexadecimal. -/
def hexByte (x : UInt8) : List UInt8 := [itox (x.toNat / 16 : ℕ), itox (x.toNat % 16 : ℕ)]

def hexBytes (xs : List UInt8) : List UInt8 := xs.flatMap hexByte

theorem toNat_hi (x : UInt8) : ((x >>> 4) &&& 0xF).toNat = x.toNat / 16 := by
  have hx := x.toNat_lt
  have hand : x.toNat / 16 &&& 15 = x.toNat / 16 % 16 := Nat.and_two_pow_sub_one_eq_mod _ 4
  simp [UInt8.toNat_and, UInt8.toNat_shiftRight, Nat.shiftRight_eq_div_pow, hand]
  omega

theorem toNat_lo (x : UInt8) : ((x >>> 0) &&& 0xF).toNat = x.toNat % 16 := by
  have hand : x.toNat &&& 15 = x.toNat % 16 := Nat.and_two_pow_sub_one_eq_mod _ 4
  simp [UInt8.toNat_and, hand]

theorem pl011Putc_eq (x : UInt8) : pl011Putc x = puts [x] := rfl

theorem pl011Puth_eq (x : UInt8) : pl011Puth x = puts (hexByte x) := by
  unfold pl011Puth hexByte
  rw [toNat_hi, toNat_lo]
  rfl

theorem hexVal_itox : ∀ k < 16, hexVal (itox (k : ℕ)) = some k := by decide

theorem itox_range : ∀ k < 16, 48 ≤ itox (k : ℕ) ∧ itox (k : ℕ) ≤ 70 := by decide

/-- What the driver sends the server decodes. -/
theorem unhexlify_hexBytes (xs : List UInt8) : unhexlify (hexBytes xs) = .ok xs :=
  unhexlify_flatMap hexVal_itox xs

/-! ## What is received -/

theorem xtoi_eq (b : UInt8) : xtoi b = (hexVal b).elim (-1) fun k => (k : ℤ) := by
  unfold xtoi hexVal
  have h0 : chr '0' = 48 := rfl
  have h9 : chr '9' = 57 := rfl
  have ha : chr 'a' = 97 := rfl
  have hf : chr 'f' = 102 := rfl
  have hA : chr 'A' = 65 := rfl
  have hF : chr 'F' = 70 := rfl
  simp only [h0, h9, ha, hf, hA, hF, UInt8.le_iff_toNat_le, UInt8.reduceToNat]
  split_ifs <;> simp <;> omega

theorem xtoi_range (b : UInt8) : ∃ k < 17, xtoi b = ((k : ℕ) - 1 : ℤ) := by
  rw [xtoi_eq]
  rcases hb : hexVal b with _ | k
  · exact ⟨0, by decide, rfl⟩
  · have hk := hexVal_lt hb
    exact ⟨k + 1, by omega, by simp⟩

theorem xtoi_eq_zero {b : UInt8} : xtoi b = 0 ↔ b = chr '0' := by
  rw [xtoi_eq, ← hexVal_eq_zero]
  rcases hexVal b with _ | k <;> simp

theorem xtoi_hexDigit : ∀ k < 16, xtoi (hexDigit k) = k := by decide

theorem yields_getc (b : UInt8) : Yields pl011Getc [b] b := rfl

theorem or_digits : ∀ h < 16, ∀ l < 16,
    UInt8.ofInt ((h : ℕ) * 2 ^ 4) ||| UInt8.ofInt ((l : ℕ) * 2 ^ 0) = UInt8.ofNat (16 * h + l) := by
  decide

/-- The byte `PL011_geth` makes of two characters, be they digits or not. -/
def hexPair (h l : UInt8) : UInt8 :=
  UInt8.ofInt (xtoi h * 2 ^ 4) ||| UInt8.ofInt (xtoi l * 2 ^ 0)

theorem yields_hexPair (h l : UInt8) : Yields pl011Geth [h, l] (hexPair h l) := rfl

theorem hexPair_digits {h l : UInt8} {i j : ℕ} (hh : hexVal h = some i) (hl : hexVal l = some j) :
    hexPair h l = UInt8.ofNat (16 * i + j) := by
  rw [hexPair, xtoi_eq, xtoi_eq, hh, hl]
  exact or_digits i (hexVal_lt hh) j (hexVal_lt hl)

theorem or_eq_zero : ∀ h < 17, ∀ l < 17,
    UInt8.ofInt (((h : ℕ) - 1 : ℤ) * 2 ^ 4) ||| UInt8.ofInt (((l : ℕ) - 1 : ℤ) * 2 ^ 0) = 0 ↔
      h = 1 ∧ l = 1 := by
  decide

/-- Nothing but two zeros is read as zero. -/
theorem hexPair_eq_zero {h l : UInt8} : hexPair h l = 0 ↔ h = chr '0' ∧ l = chr '0' := by
  obtain ⟨k, hk, hh⟩ := xtoi_range h
  obtain ⟨j, hj, hl⟩ := xtoi_range l
  rw [← xtoi_eq_zero, ← xtoi_eq_zero, hexPair, hh, hl, or_eq_zero k hk j hj]
  omega

theorem or_negative : ∀ h < 17, ∀ l < 17,
    0x80 ≤ UInt8.ofInt (((h : ℕ) - 1 : ℤ) * 2 ^ 4) ||| UInt8.ofInt (((l : ℕ) - 1 : ℤ) * 2 ^ 0) ↔
      l = 0 ∨ h = 0 ∨ 9 ≤ h := by
  decide

/-- The -1 of `xtoi` sets every bit it is or-ed into, so the top bit is set where a
    character is no digit. -/
theorem hexPair_negative {h l : UInt8} : 0x80 ≤ hexPair h l ↔
    xtoi l = -1 ∨ xtoi h = -1 ∨ 8 ≤ xtoi h := by
  obtain ⟨k, hk, hh⟩ := xtoi_range h
  obtain ⟨j, hj, hl⟩ := xtoi_range l
  rw [hexPair, hh, hl, or_negative k hk j hj]
  omega

/-- The bytes of pairs of characters. -/
def hexPairs : List UInt8 → List UInt8
  | h :: l :: s => hexPair h l :: hexPairs s
  | _ => []

theorem hexPairs_length {n : ℕ} {s : List UInt8} (h : s.length = 2 * n) :
    (hexPairs s).length = n := by
  induction n generalizing s with
  | zero =>
    obtain rfl := List.length_eq_zero_iff.1 h
    rfl
  | succ n ih =>
    rcases s with _ | ⟨a, _ | ⟨b, s⟩⟩
    · simp at h
    · simp at h; omega
    · rw [hexPairs, List.length_cons, ih (by simp at h; omega)]

theorem hexPairs_append {n : ℕ} {s : List UInt8} (h : s.length = 2 * n) (t : List UInt8) :
    hexPairs (s ++ t) = hexPairs s ++ hexPairs t := by
  induction n generalizing s with
  | zero =>
    obtain rfl := List.length_eq_zero_iff.1 h
    rfl
  | succ n ih =>
    rcases s with _ | ⟨a, _ | ⟨b, s⟩⟩
    · simp at h
    · simp at h; omega
    · rw [List.cons_append, List.cons_append, hexPairs, hexPairs, List.cons_append,
        ih (by simp at h; omega)]

theorem hexPairs_getD {s : List UInt8} {i : ℕ} (h : 2 * i + 1 < s.length) :
    (hexPairs s).getD i 0 = hexPair (s.getD (2 * i) 0) (s.getD (2 * i + 1) 0) := by
  induction i generalizing s with
  | zero =>
    rcases s with _ | ⟨a, _ | ⟨b, s⟩⟩
    · simp at h
    · simp at h
    · rfl
  | succ i ih =>
    rcases s with _ | ⟨a, _ | ⟨b, s⟩⟩
    · simp at h
    · simp at h
    · exact ih (by simp at h; omega)

/-- Digits are decoded as `unhexlify` decodes them. -/
theorem hexPairs_of_unhexlify {s bs : List UInt8} (h : unhexlify s = .ok bs) : hexPairs s = bs := by
  induction bs generalizing s with
  | nil =>
    rcases s with _ | ⟨a, _ | ⟨b, s⟩⟩
    · rfl
    · rfl
    · obtain ⟨i, j, bs', -, -, -, hbs⟩ := unhexlify_cons_cons h
      cases hbs
  | cons b bs ih =>
    rcases s with _ | ⟨a, _ | ⟨b', s⟩⟩
    · cases h
    · cases h
    · obtain ⟨i, j, bs', hi, hj, hs, hbs⟩ := unhexlify_cons_cons h
      obtain ⟨rfl, rfl⟩ := List.cons_eq_cons.1 hbs
      rw [hexPairs, hexPair_digits hi hj, ih hs]

/-- What the server sends the driver decodes. -/
theorem yields_geth (x : UInt8) : Yields pl011Geth (hexlify [x]) x := by
  have hx := x.toNat_lt
  show UInt8.ofInt (xtoi (hexDigit (x.toNat / 16)) * 2 ^ 4) |||
    UInt8.ofInt (xtoi (hexDigit (x.toNat % 16)) * 2 ^ 0) = x
  rw [xtoi_hexDigit _ (by omega), xtoi_hexDigit _ (by omega), or_digits _ (by omega) _ (by omega),
    ofNat_halves]

theorem receives_getc : Receives pl011Getc 1 := fun _ => trivial

theorem receives_geth : Receives pl011Geth 2 := fun _ _ => trivial

end CcKernel
