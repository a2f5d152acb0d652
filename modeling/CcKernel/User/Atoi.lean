/-
  `atoi` on decimal numerals, and on any string.

  `atoi?` is the same function as C defines it: it has no result if an operation
  on an `int` overflows, be it on the number or on the counter of the loop.
-/
import CcKernel.Lib.CInt
import CcKernel.Lib.Decimal
import CcKernel.User.Libc

namespace CcKernel

open CStr Decimal

/-- The new value of `r`. -/
def atoiStep? (s : Bool) (r : Int32) (c : UInt8) : Option Int32 := do
  let m ← CInt.mul r 10
  let d ← CInt.sub (Int32.ofNat c.toNat) 48
  if s then CInt.sub m d else CInt.add m d

def atoiLoop? (s : Bool) : Str → Int32 → Int32 → Option Int32
  | [], r, _ => some r
  | c :: p, r, i => do
    let r ← atoiStep? s r c
    let i ← CInt.add i 1
    atoiLoop? s p r i

def atoi? (x : Str) : Option Int32 :=
  match x with
  | 0x2D :: p => atoiLoop? true p 0 0
  | 0x2B :: p => atoiLoop? false p 0 0
  | p => atoiLoop? false p 0 0

/-! ## One digit -/

variable {s : Bool} {r r' : Int32} {c : UInt8}

/-- The sign of what has been read. -/
def withSign (s : Bool) (v : ℕ) : ℤ := if s then -(v : ℤ) else v

@[simp] theorem withSign_true (v : ℕ) : withSign true v = -v := rfl

@[simp] theorem withSign_false (v : ℕ) : withSign false v = v := rfl

/-- Where C defines a step, it is that of the machine. -/
theorem eq_atoiStep (h : atoiStep? s r c = some r') :
    (if s then r * 10 - digit c else r * 10 + digit c) = r' := by
  obtain ⟨m, hm, h⟩ := Option.bind_eq_some_iff.1 h
  obtain ⟨d, hd, h⟩ := Option.bind_eq_some_iff.1 h
  obtain rfl := CInt.eq_mul hm
  obtain rfl := CInt.eq_sub hd
  cases s with
  | true => exact CInt.eq_sub h
  | false => exact CInt.eq_add h

/-- A digit appends to the number if that fits. -/
theorem atoiStep?_digit {v d : ℕ} (hd : d < 10) (hr : r.toInt = withSign s v)
    (hfit : -2 ^ 31 ≤ withSign s (10 * v + d) ∧ withSign s (10 * v + d) < 2 ^ 31) :
    ∃ r', atoiStep? s r (digitChar d) = some r' ∧ r'.toInt = withSign s (10 * v + d) := by
  have hten : (10 : Int32).toInt = 10 := rfl
  have hzero : (48 : Int32).toInt = 48 := rfl
  have hchar : (Int32.ofNat (digitChar d).toNat).toInt = 48 + d := by
    rw [toNat_digitChar hd, Int32.toInt_ofNat_of_lt (by omega)]
    omega
  obtain ⟨e, he, hev⟩ : ∃ e, CInt.sub (Int32.ofNat (digitChar d).toNat) 48 = some e ∧
      e.toInt = d := by
    obtain ⟨e, he, hev⟩ := CInt.exists_ofInt
      (v := (Int32.ofNat (digitChar d).toNat).toInt - (48 : Int32).toInt) (by omega)
    exact ⟨e, he, by omega⟩
  obtain ⟨m, hm, hmv⟩ : ∃ m, CInt.mul r 10 = some m ∧ m.toInt = r.toInt * (10 : Int32).toInt := by
    refine CInt.exists_ofInt ?_
    rw [hr, hten]
    cases s <;> simp only [withSign_true, withSign_false] at hfit ⊢ <;> omega
  rw [hr, hten] at hmv
  unfold atoiStep?
  rw [hm, he]
  cases s with
  | true =>
    simp only [withSign_true] at hfit hmv ⊢
    obtain ⟨r', hr', hv⟩ := CInt.exists_ofInt (v := m.toInt - e.toInt) (by omega)
    exact ⟨r', hr', by omega⟩
  | false =>
    simp only [withSign_false] at hfit hmv ⊢
    obtain ⟨r', hr', hv⟩ := CInt.exists_ofInt (v := m.toInt + e.toInt) (by omega)
    exact ⟨r', hr', by omega⟩

/-! ## All digits -/

/-- Not an overflow. -/
def Fits (v : ℤ) : Prop := -2 ^ 31 ≤ v ∧ v < 2 ^ 31

/-- What has been read fits if the whole number does. -/
theorem fits_prefix {pre ds : List ℕ} (h : Fits (withSign s (value (pre ++ ds)))) :
    Fits (withSign s (value pre)) := by
  have hle := value_le_append pre ds
  unfold Fits at *
  cases s with
  | true =>
    simp only [withSign_true] at h ⊢
    omega
  | false =>
    simp only [withSign_false] at h ⊢
    omega

/-- The loop goes on from the number of the digits `pre`. -/
theorem atoiLoop_digits {pre ds : List ℕ} (hds : ∀ d ∈ ds, d < 10)
    (hr : r.toInt = withSign s (value pre)) (hfit : Fits (withSign s (value (pre ++ ds))))
    {i : Int32} :
    (atoiLoop s (ds.map digitChar) r).toInt = withSign s (value (pre ++ ds)) ∧
      (i.toInt + ds.length < 2 ^ 31 →
        atoiLoop? s (ds.map digitChar) r i = some (atoiLoop s (ds.map digitChar) r)) := by
  induction ds generalizing pre r i with
  | nil => exact ⟨by rw [List.append_nil]; exact hr, fun _ => rfl⟩
  | cons d ds ih =>
    obtain ⟨hd, hds⟩ := List.forall_mem_cons.1 hds
    have happ : pre ++ d :: ds = pre ++ [d] ++ ds := by simp
    rw [happ] at hfit ⊢
    have hfit' := fits_prefix hfit
    rw [value_concat] at hfit'
    obtain ⟨r', hstep, hr'⟩ := atoiStep?_digit hd hr hfit'
    rw [← value_concat] at hr'
    rw [List.map_cons, atoiLoop, eq_atoiStep hstep, atoiLoop?, hstep]
    refine ⟨(ih hds hr' hfit (i := i)).1, fun hi => ?_⟩
    have hone : (1 : Int32).toInt = 1 := rfl
    have hlo := i.le_toInt
    rw [List.length_cons, Nat.cast_add, Nat.cast_one] at hi
    obtain ⟨j, hj, hjv⟩ := CInt.exists_ofInt (v := i.toInt + (1 : Int32).toInt) (by omega)
    have hadd : CInt.add i 1 = some j := hj
    show (CInt.add i 1 >>= fun i => atoiLoop? s (ds.map digitChar) r' i) = _
    rw [hadd]
    exact (ih hds hr' hfit).2 (by omega)

/-- The counter does not get past the greatest `int`. -/
theorem atoiLoop?_long {p : Str} {i : Int32} (h : 2 ^ 31 ≤ i.toInt + p.length) :
    atoiLoop? s p r i = none := by
  induction p generalizing r i with
  | nil =>
    have hhi := i.toInt_lt
    simp at h
    omega
  | cons c p ih =>
    rw [atoiLoop?]
    rcases atoiStep? s r c with _ | r'
    · rfl
    rcases hj : CInt.add i 1 with _ | j
    · rfl
    · have hone : (1 : Int32).toInt = 1 := rfl
      have hjv := CInt.add_eq_some.1 hj
      rw [List.length_cons, Nat.cast_add, Nat.cast_one] at h
      exact ih (by omega)

/-! ## Numerals -/

theorem digitChar_ne {d : ℕ} (hd : d < 10) : digitChar d ≠ 0x2D ∧ digitChar d ≠ 0x2B := by
  have hv := toNat_digitChar hd
  constructor
  · intro h
    rw [h] at hv
    simp at hv
    omega
  · intro h
    rw [h] at hv
    simp at hv
    omega

theorem atoi_digit {d : ℕ} (hd : d < 10) (p : Str) :
    atoi (digitChar d :: p) = atoiLoop false (digitChar d :: p) 0 := by
  obtain ⟨hminus, hplus⟩ := digitChar_ne hd
  unfold atoi
  split
  · rename_i heq
    exact absurd (List.cons.inj heq).1 hminus
  · rename_i heq
    exact absurd (List.cons.inj heq).1 hplus
  · rfl

theorem atoi?_digit {d : ℕ} (hd : d < 10) (p : Str) :
    atoi? (digitChar d :: p) = atoiLoop? false (digitChar d :: p) 0 0 := by
  obtain ⟨hminus, hplus⟩ := digitChar_ne hd
  unfold atoi?
  split
  · rename_i heq
    exact absurd (List.cons.inj heq).1 hminus
  · rename_i heq
    exact absurd (List.cons.inj heq).1 hplus
  · rfl

/-- After the sign. -/
theorem atoi_chars_eq (n : Numeral) :
    atoi n.chars = atoiLoop (n.sign = .minus) (n.digits.map digitChar) 0 ∧
      atoi? n.chars = atoiLoop? (n.sign = .minus) (n.digits.map digitChar) 0 0 := by
  obtain ⟨sign, ds, hne, hlt⟩ := n
  cases sign with
  | minus => exact ⟨rfl, rfl⟩
  | plus => exact ⟨rfl, rfl⟩
  | none =>
    rcases ds with _ | ⟨d, ds⟩
    · exact absurd rfl hne
    · have hd : d < 10 := hlt d (List.mem_cons_self ..)
      exact ⟨atoi_digit hd _, atoi?_digit hd _⟩

theorem numeral_value_eq (n : Numeral) :
    n.value = withSign (n.sign = .minus) (value ([] ++ n.digits)) := by
  unfold Numeral.value withSign
  by_cases h : n.sign = .minus <;> simp [h]

/-- `atoi` reads a numeral that fits; C agrees, if it can count the digits. -/
theorem atoi_chars {n : Numeral} (h : Fits n.value) :
    (atoi n.chars).toInt = n.value ∧
      (n.digits.length < 2 ^ 31 → atoi? n.chars = some (atoi n.chars)) := by
  obtain ⟨hm, hc⟩ := atoi_chars_eq n
  have hzero : (0 : Int32).toInt = 0 := rfl
  rw [numeral_value_eq] at h ⊢
  have hr : (0 : Int32).toInt = withSign (n.sign = .minus) (value []) := by
    cases decide (n.sign = .minus) <;> rfl
  obtain ⟨hv, hd⟩ := atoiLoop_digits n.digit_lt hr h (i := 0)
  rw [hm, hc]
  exact ⟨hv, fun hlen => hd (by omega)⟩

/-- **`atoi` is correct on every numeral that fits in an `int`**, and nothing in it
    overflows as long as there are fewer than 2^31 digits to count.  No string in
    the 512 MiB of the machine has more. -/
theorem atoi_correct {n : Numeral} (h : -2 ^ 31 ≤ n.value ∧ n.value < 2 ^ 31) :
    (atoi n.chars).toInt = n.value ∧
      (n.digits.length < 2 ^ 31 ↔ atoi? n.chars = some (atoi n.chars)) := by
  obtain ⟨hv, hd⟩ := atoi_chars h
  refine ⟨hv, hd, fun hsome => ?_⟩
  by_contra hlen
  have hzero : (0 : Int32).toInt = 0 := rfl
  rw [(atoi_chars_eq n).2, atoiLoop?_long (by rw [List.length_map]; omega)] at hsome
  cases hsome

theorem atoi_correct_min :
    (atoi (numeral (-2147483648)).chars).toInt = (numeral (-2147483648)).value ∧
    ((numeral (-2147483648)).digits.length < 2 ^ 31 ↔
      atoi? (numeral (-2147483648)).chars = some (atoi (numeral (-2147483648)).chars)) :=
  atoi_correct (by rw [numeral_value]; decide)

/-! ## Any characters -/

/-- The sign of a string, and what `atoi` reads after it. -/
def unsigned : Str → Bool × Str
  | 0x2D :: p => (true, p)
  | 0x2B :: p => (false, p)
  | p => (false, p)

theorem atoi_unsigned (x : Str) : atoi x = atoiLoop (unsigned x).1 (unsigned x).2 0 ∧
    atoi? x = atoiLoop? (unsigned x).1 (unsigned x).2 0 0 := by
  rcases x with _ | ⟨c, p⟩
  · exact ⟨rfl, rfl⟩
  by_cases hminus : c = 0x2D
  · subst hminus
    exact ⟨rfl, rfl⟩
  by_cases hplus : c = 0x2B
  · subst hplus
    exact ⟨rfl, rfl⟩
  · simp [atoi, atoi?, unsigned, hminus, hplus]

/-- The characters are taken for digits, whatever they are. -/
def appendChar (s : Bool) (v : ℤ) (c : UInt8) : ℤ :=
  let d : ℤ := c.toNat - 48
  if s then v * 10 - d else v * 10 + d

/-- The value of the characters after those of the value `v`. -/
def charsValue (s : Bool) (v : ℤ) (p : Str) : ℤ := p.foldl (appendChar s) v

/-- The machine computes the value, up to the `int`s being a ring. -/
theorem atoiLoop_ofInt (s : Bool) (p : Str) (v : ℤ) :
    atoiLoop s p (Int32.ofInt v) = Int32.ofInt (charsValue s v p) := by
  induction p generalizing v with
  | nil => rfl
  | cons c p ih =>
    have hdigit : digit c = Int32.ofInt (c.toNat - 48) := by
      rw [Int32.ofInt_sub, Int32.ofInt_eq_ofNat]
      rfl
    have hten : (10 : Int32) = Int32.ofInt 10 := rfl
    have hstep : (if s then Int32.ofInt v * 10 - digit c else Int32.ofInt v * 10 + digit c) =
        Int32.ofInt (appendChar s v c) := by
      unfold appendChar
      rw [hdigit, hten, ← Int32.ofInt_mul, ← Int32.ofInt_sub, ← Int32.ofInt_add]
      cases s <;> rfl
    rw [atoiLoop, hstep, ih]
    rfl

/-- A character is appended if ten times the number and the new one fit. -/
theorem atoiStep?_eq_some : atoiStep? s r c = some r' ↔
    Fits (r.toInt * 10) ∧ r'.toInt = appendChar s r.toInt c := by
  have hten : (10 : Int32).toInt = 10 := rfl
  have hzero : (48 : Int32).toInt = 48 := rfl
  have hc := c.toNat_lt
  have hchar : (Int32.ofNat c.toNat).toInt = c.toNat := Int32.toInt_ofNat_of_lt (by omega)
  obtain ⟨d, hd, hdv⟩ := CInt.exists_ofInt
    (v := (Int32.ofNat c.toNat).toInt - (48 : Int32).toInt) (by omega)
  have hsub : CInt.sub (Int32.ofNat c.toNat) 48 = some d := hd
  unfold atoiStep? appendChar
  rcases hm : CInt.mul r 10 with _ | m
  · have hfit := CInt.ofInt_eq_none.1 hm
    rw [hten] at hfit
    refine iff_of_false (by simp) ?_
    rintro ⟨hfits, -⟩
    unfold Fits at hfits
    omega
  · have hmv := CInt.mul_eq_some.1 hm
    rw [hten] at hmv
    have hlo := m.le_toInt
    have hhi := m.toInt_lt
    have hfits : Fits (r.toInt * 10) := by
      unfold Fits
      omega
    rw [hsub]
    simp only [Option.bind_eq_bind, Option.bind_some, hfits, true_and]
    cases s with
    | true =>
      simp only [if_true, CInt.sub_eq_some]
      rw [hmv, hdv, hchar, hzero]
    | false =>
      simp only [Bool.false_eq_true, if_false, CInt.add_eq_some]
      rw [hmv, hdv, hchar, hzero]

/-- By induction on the characters; each is the last one of a beginning. -/
theorem atoiLoop?_isSome {p : Str} {i : Int32} : (atoiLoop? s p r i).isSome ↔
    i.toInt + p.length < 2 ^ 31 ∧ ∀ pre c, pre ++ [c] <+: p →
      Fits (charsValue s r.toInt pre * 10) ∧ Fits (charsValue s r.toInt (pre ++ [c])) := by
  induction p generalizing r i with
  | nil =>
    have hi := i.toInt_lt
    simp [atoiLoop?]
    omega
  | cons c p ih =>
    have hone : (1 : Int32).toInt = 1 := rfl
    rw [List.length_cons, Nat.cast_add, Nat.cast_one]
    constructor
    · intro h
      obtain ⟨t, ht⟩ := Option.isSome_iff_exists.1 h
      obtain ⟨r', hr, ht⟩ := Option.bind_eq_some_iff.1 ht
      obtain ⟨j, hj, ht⟩ := Option.bind_eq_some_iff.1 ht
      obtain ⟨hten, hr'⟩ := atoiStep?_eq_some.1 hr
      have hjv := CInt.add_eq_some.1 hj
      obtain ⟨hlen, hfits⟩ := ih.1 (Option.isSome_iff_exists.2 ⟨t, ht⟩)
      refine ⟨by omega, ?_⟩
      intro pre e hpre
      rcases pre with _ | ⟨e', pre⟩
      · obtain ⟨rfl, -⟩ := List.cons_prefix_cons.1 hpre
        refine ⟨hten, ?_⟩
        show Fits (appendChar s r.toInt e)
        rw [← hr']
        exact ⟨r'.le_toInt, r'.toInt_lt⟩
      · obtain ⟨rfl, hrest⟩ := List.cons_prefix_cons.1 hpre
        have hfit := hfits pre e hrest
        rw [hr'] at hfit
        exact hfit
    · rintro ⟨hlen, hfits⟩
      obtain ⟨hten, hfit⟩ := hfits [] c (List.cons_prefix_cons.2 ⟨rfl, List.nil_prefix⟩)
      obtain ⟨r', -, hr'⟩ := CInt.exists_ofInt hfit
      have hlo := i.le_toInt
      obtain ⟨j, hj, hjv⟩ := CInt.exists_ofInt (v := i.toInt + (1 : Int32).toInt) (by omega)
      have hadd : CInt.add i 1 = some j := hj
      have hstep : atoiStep? s r c = some r' := atoiStep?_eq_some.2 ⟨hten, hr'⟩
      rw [atoiLoop?, hstep, Option.bind_eq_bind, Option.bind_some, hadd, Option.bind_some]
      refine ih.2 ⟨by omega, ?_⟩
      intro pre e hpre
      rw [hr']
      exact hfits (c :: pre) e (List.cons_prefix_cons.2 ⟨rfl, hpre⟩)

/-- Where C defines the loop, it is that of the machine. -/
theorem eq_atoiLoop {p : Str} {i t : Int32} (h : atoiLoop? s p r i = some t) :
    atoiLoop s p r = t := by
  induction p generalizing r i with
  | nil => exact Option.some.inj h
  | cons c p ih =>
    obtain ⟨r', hr, h⟩ := Option.bind_eq_some_iff.1 h
    obtain ⟨j, -, h⟩ := Option.bind_eq_some_iff.1 h
    rw [atoiLoop, eq_atoiStep hr]
    exact ih h

/-- **`atoi` on any string** takes every character for a digit and returns the
    value modulo 2^32; an operation overflows unless the counter suffices and ten
    times the value of each beginning, and the next beginning, are `int`s. -/
theorem atoi_any (x : Str) :
    atoi x = Int32.ofInt (charsValue (unsigned x).1 0 (unsigned x).2) ∧
    ((atoi? x).isSome ↔ (unsigned x).2.length < 2 ^ 31 ∧ ∀ pre c, pre ++ [c] <+: (unsigned x).2 →
      Fits (charsValue (unsigned x).1 0 pre * 10) ∧
        Fits (charsValue (unsigned x).1 0 (pre ++ [c]))) ∧
    ∀ r, atoi? x = some r → atoi x = r := by
  obtain ⟨hatoi, hatoi?⟩ := atoi_unsigned x
  rw [hatoi, hatoi?]
  refine ⟨atoiLoop_ofInt _ _ 0, ?_, fun r h => eq_atoiLoop h⟩
  have hzero : (0 : Int32).toInt = 0 := rfl
  rw [atoiLoop?_isSome, hzero, zero_add]
  norm_cast

end CcKernel
