/-
  The greatest common divisor of the user program `P4` (`user/P4.c`).

  A recursive call is the last thing a call does, so the calls are the turns of a
  loop.  A round of `main_P4` makes 240 * 240 outermost calls.
-/
import CcKernel.Lib.Loop

namespace CcKernel

open Loop

/-- One call: what it returns, or the call it makes. -/
def gcdBody (p : UInt32 × UInt32) : Turn (UInt32 × UInt32) (Option UInt32) :=
  let (x, y) := p
  if x = y then .leave (some x)
  else if x > y then .next (x - y, y)
  else if x < y then .next (x, y - x)
  else .leave none -- the end of the function, without a value

/-- Nothing if there are more than `k` calls. -/
def gcd (k : ℕ) (x y : UInt32) : Option UInt32 := (run gcdBody k (x, y)).join

theorem toNat_succ {x : UInt32} (h : x.toNat + 1 < 2 ^ 32) : (x + 1).toNat = x.toNat + 1 := by
  rw [UInt32.toNat_add]
  exact Nat.mod_eq_of_lt h

theorem below_succ {x hi : UInt32} (h : x < hi) :
    hi.toNat - (x + 1).toNat < hi.toNat - x.toNat := by
  have hlt : x.toNat < hi.toNat := h
  have hhi := hi.toNat_lt
  rw [toNat_succ (by omega)]
  omega

/-- `for( uint32_t x = x; x < hi; x++ )`: the calls of `gcd` that the body makes, if
    they all return. -/
def forBelow (hi : UInt32) (body : UInt32 → Option (List (UInt32 × UInt32))) (x : UInt32) :
    Option (List (UInt32 × UInt32)) :=
  if x < hi then do
    let ps ← body x
    let qs ← forBelow hi body (x + 1)
    return ps ++ qs
  else some []
termination_by hi.toNat - x.toNat
decreasing_by exact below_succ ‹_›

/-- A round of `main_P4`, with up to `k` calls for each call of `gcd`. -/
def mainP4Round (k : ℕ) : Option (List (UInt32 × UInt32)) :=
  let lo := (1 : UInt32) <<< 4
  let hi := (1 : UInt32) <<< 8
  forBelow hi (fun x => forBelow hi (fun y => do
    let _r ← gcd k x y
    return [(x, y)]) lo) lo

/-- The values of `x` in `for( uint32_t x = lo; x < hi; x++ )`. -/
def upTo (lo hi : UInt32) : List UInt32 :=
  (List.range' lo.toNat (hi.toNat - lo.toNat)).map UInt32.ofNat

/-- The arguments of `gcd` in a round of `main_P4`. -/
def mainP4Args : List (UInt32 × UInt32) :=
  let lo := (1 : UInt32) <<< 4
  let hi := (1 : UInt32) <<< 8
  (upTo lo hi).flatMap fun x => (upTo lo hi).map fun y => (x, y)

/-! ## One call -/

variable {p q : UInt32 × UInt32}

/-- Both arguments are positive. -/
def Positive (p : UInt32 × UInt32) : Prop := 1 ≤ p.1.toNat ∧ 1 ≤ p.2.toNat

/-- `q` is `p` with the smaller argument taken from the greater, as numbers. -/
def Subtracts (p q : UInt32 × UInt32) : Prop :=
  q.1.toNat + p.2.toNat = p.1.toNat ∧ q.2 = p.2 ∨ q.1 = p.1 ∧ q.2.toNat + p.1.toNat = p.2.toNat

/-- A recursive call is for different arguments, and its subtraction does not wrap around. -/
theorem gcdBody_next (h : gcdBody p = .next q) : p.1 ≠ p.2 ∧ Subtracts p q := by
  obtain ⟨x, y⟩ := p
  have hsub {a b : UInt32} (hlt : a < b) : (b - a).toNat + a.toNat = b.toNat := by
    have hle := UInt32.le_of_lt hlt
    rw [UInt32.toNat_sub_of_le _ _ hle]
    exact Nat.sub_add_cancel hle
  unfold gcdBody at h
  simp only at h
  split_ifs at h with heq hgt hlt
  · obtain rfl := Turn.next.inj h
    exact ⟨heq, Or.inl ⟨hsub hgt, rfl⟩⟩
  · obtain rfl := Turn.next.inj h
    exact ⟨heq, Or.inr ⟨rfl, hsub hlt⟩⟩

/-- A call returns when its arguments are equal. -/
theorem gcdBody_leave {r : Option UInt32} (h : gcdBody p = .leave r) :
    p.1 = p.2 ∧ r = some p.1 := by
  obtain ⟨x, y⟩ := p
  unfold gcdBody at h
  simp only at h
  split_ifs at h with heq hgt hlt
  · exact ⟨heq, (Turn.leave.inj h).symm⟩
  · have hne : x.toNat ≠ y.toNat := fun hxy => heq (UInt32.toNat_inj.1 hxy)
    rw [gt_iff_lt, UInt32.lt_iff_toNat_lt] at hgt
    rw [UInt32.lt_iff_toNat_lt] at hlt
    omega

theorem Subtracts.gcd_eq (h : Subtracts p q) :
    Nat.gcd q.1.toNat q.2.toNat = Nat.gcd p.1.toNat p.2.toNat := by
  rcases h with ⟨hsub, hsame⟩ | ⟨hsame, hsub⟩
  · rw [← hsub, hsame, Nat.gcd_add_self_left]
  · rw [← hsub, hsame, Nat.gcd_add_self_right]

/-- A recursive call has positive arguments and a smaller sum. -/
theorem Positive.next (hp : Positive p) (h : gcdBody p = .next q) :
    Positive q ∧ q.1.toNat + q.2.toNat < p.1.toNat + p.2.toNat := by
  obtain ⟨hne, hsub⟩ := gcdBody_next h
  have hne : p.1.toNat ≠ p.2.toNat := fun heq => hne (UInt32.toNat_inj.1 heq)
  obtain ⟨hx, hy⟩ := hp
  rcases hsub with ⟨hsub, hsame⟩ | ⟨hsame, hsub⟩
  · have hsame := congrArg UInt32.toNat hsame
    exact ⟨⟨by omega, by omega⟩, by omega⟩
  · have hsame := congrArg UInt32.toNat hsame
    exact ⟨⟨by omega, by omega⟩, by omega⟩

/-! ## All calls -/

/-- What holds of all calls that a call for `p` leads to. -/
def GcdInv (p q : UInt32 × UInt32) : Prop :=
  Positive q ∧ Nat.gcd q.1.toNat q.2.toNat = Nat.gcd p.1.toNat p.2.toNat

theorem GcdInv.next {s s' : UInt32 × UInt32} (hs : GcdInv p s) (h : gcdBody s = .next s') :
    GcdInv p s' ∧ s'.1.toNat + s'.2.toNat < s.1.toNat + s.2.toNat := by
  obtain ⟨hpos, hgcd⟩ := hs
  obtain ⟨hpos', hlt⟩ := hpos.next h
  exact ⟨⟨hpos', (gcdBody_next h).2.gcd_eq.trans hgcd⟩, hlt⟩

theorem GcdInv.leave {s : UInt32 × UInt32} {r : Option UInt32} (hs : GcdInv p s)
    (h : gcdBody s = .leave r) :
    ∃ v : UInt32, r = some v ∧ v.toNat = Nat.gcd p.1.toNat p.2.toNat := by
  obtain ⟨heq, rfl⟩ := gcdBody_leave h
  refine ⟨s.1, rfl, ?_⟩
  rw [← hs.2, ← heq, Nat.gcd_self]

/-- With positive arguments the calls come to an end, with the greatest common divisor. -/
theorem gcd_returns (hp : Positive p) {k : ℕ} (hk : p.1.toNat + p.2.toNat < k) :
    ∃ r, gcd k p.1 p.2 = some r ∧ r.toNat = Nat.gcd p.1.toNat p.2.toNat := by
  have hstart : GcdInv p p := ⟨hp, rfl⟩
  obtain ⟨r, hrun, v, rfl, hv⟩ := run_within (I := GcdInv p) (fun q => q.1.toNat + q.2.toNat)
    (fun s s' hs h => hs.next h) (fun s r hs h => hs.leave h) hstart hk
  exact ⟨v, by rw [gcd, hrun]; rfl, hv⟩

/-! ## A round of `main_P4` -/

theorem upTo_succ {x hi : UInt32} (h : x < hi) : upTo x hi = x :: upTo (x + 1) hi := by
  have hlt : x.toNat < hi.toNat := h
  have hhi := hi.toNat_lt
  have hlen : hi.toNat - x.toNat = hi.toNat - (x.toNat + 1) + 1 := by omega
  unfold upTo
  rw [hlen, List.range'_succ, List.map_cons, UInt32.ofNat_toNat, toNat_succ (by omega)]

theorem upTo_nil {x hi : UInt32} (h : ¬ x < hi) : upTo x hi = [] := by
  have hle : hi.toNat ≤ x.toNat := Nat.le_of_not_lt h
  unfold upTo
  rw [Nat.sub_eq_zero_of_le hle]
  rfl

/-- If every round of the loop returns, the calls are those of the rounds. -/
theorem forBelow_eq {hi : UInt32} {body : UInt32 → Option (List (UInt32 × UInt32))}
    {f : UInt32 → List (UInt32 × UInt32)} {x : UInt32} (h : ∀ y ∈ upTo x hi, body y = some (f y)) :
    forBelow hi body x = some ((upTo x hi).flatMap f) := by
  induction hn : hi.toNat - x.toNat using Nat.strongRecOn generalizing x with
  | ind n ih =>
    rw [forBelow]
    by_cases hx : x < hi
    · rw [upTo_succ hx, List.forall_mem_cons] at h
      have hrest := ih _ (hn ▸ below_succ hx) h.2 rfl
      rw [if_pos hx, h.1, hrest, upTo_succ hx]
      rfl
    · rw [if_neg hx, upTo_nil hx]
      rfl

/-- The loops run from 16 to 255. -/
theorem mem_upTo {x : UInt32} (hx : x ∈ upTo ((1 : UInt32) <<< 4) ((1 : UInt32) <<< 8)) :
    16 ≤ x.toNat ∧ x.toNat < 256 := by
  obtain ⟨i, hi, rfl⟩ := List.mem_map.1 hx
  have hi : 16 ≤ i ∧ i < 256 := by simpa using List.mem_range'_1.1 hi
  rw [UInt32.toNat_ofNat']
  omega

theorem positive_of_mem_mainP4Args (h : p ∈ mainP4Args) : Positive p := by
  obtain ⟨x, hx, hmap⟩ := List.mem_flatMap.1 h
  obtain ⟨y, hy, rfl⟩ := List.mem_map.1 hmap
  have hx := (mem_upTo hx).1
  have hy := (mem_upTo hy).1
  constructor <;> simp only <;> omega

/-- A round comes to its end, 511 calls for each call of `gcd` being enough. -/
theorem mainP4Round_eq {k : ℕ} (hk : 510 < k) : mainP4Round k = some mainP4Args := by
  refine forBelow_eq fun x hx => ?_
  rw [List.map_eq_flatMap]
  refine forBelow_eq fun y hy => ?_
  have hx := mem_upTo hx
  have hy := mem_upTo hy
  have hp : Positive (x, y) := ⟨by simp only; omega, by simp only; omega⟩
  obtain ⟨r, hr, -⟩ := gcd_returns hp (k := k) (by simp only; omega)
  simp only at hr
  rw [hr]
  rfl

/-- **`gcd` comes to an end with the greatest common divisor**, within `x + y + 1` calls,
    all of them with positive arguments and none of them with a subtraction that wraps
    around.  The arguments in a round of `main_P4`, which comes to its end, are such. -/
theorem gcd_spec {x y : UInt32} (hx : 1 ≤ x) (hy : 1 ≤ y) :
    (∃ r, r.toNat = Nat.gcd x.toNat y.toNat ∧
      ∀ k, x.toNat + y.toNat < k → gcd k x y = some r) ∧
    (∀ p, Reached gcdBody (x, y) p → Positive p ∧ ∀ q, gcdBody p = .next q → Subtracts p q) ∧
    (∀ k, 510 < k → mainP4Round k = some mainP4Args) ∧ ∀ p ∈ mainP4Args, Positive p := by
  have hp : Positive (x, y) := ⟨hx, hy⟩
  refine ⟨?_, ?_, fun k => mainP4Round_eq, fun p => positive_of_mem_mainP4Args⟩
  · obtain ⟨r, -, hr⟩ := gcd_returns hp (Nat.lt_succ_self _)
    refine ⟨r, hr, ?_⟩
    intro k hk
    obtain ⟨r', hrun, hr'⟩ := gcd_returns hp hk
    rw [hrun, UInt32.toNat_inj.1 (hr'.trans hr.symm)]
  · intro p hreach
    refine ⟨hreach.inv (fun s s' hpos h => (hpos.next h).1) hp, ?_⟩
    intro q h
    exact (gcdBody_next h).2

theorem gcd_spec_example :
    (∃ r, r.toNat = Nat.gcd 12 18 ∧ ∀ k, 12 + 18 < k → gcd k 12 18 = some r) ∧
    (∀ p, Reached gcdBody (12, 18) p →
      Positive p ∧ ∀ q, gcdBody p = .next q → Subtracts p q) ∧
    (∀ k, 510 < k → mainP4Round k = some mainP4Args) ∧ ∀ p ∈ mainP4Args, Positive p :=
  gcd_spec (x := 12) (y := 18) (by decide) (by decide)

/-- With one argument zero it calls itself for ever. -/
theorem gcd_hangs {x : UInt32} (hx : x ≠ 0) (k : ℕ) : gcd k 0 x = none ∧ gcd k x 0 = none := by
  have hpos : 0 < x := UInt32.pos_iff_ne_zero.2 hx
  have hleft : gcdBody (0, x) = .next (0, x) := by
    simp [gcdBody, hx.symm, hpos]
  have hright : gcdBody (x, 0) = .next (x, 0) := by
    simp [gcdBody, hx, hpos]
  exact ⟨by rw [gcd, run_fixed hleft]; rfl, by rw [gcd, run_fixed hright]; rfl⟩

/-! ## How many calls -/

/-- The sum of the quotients of the divisions of Euclid's algorithm. -/
def quotients (x y : ℕ) : ℕ :=
  if y = 0 then 0 else x / y + quotients y (x % y)
termination_by y
decreasing_by exact Nat.mod_lt x (Nat.pos_of_ne_zero ‹_›)

theorem quotients_zero (x : ℕ) : quotients x 0 = 0 := by
  rw [quotients]
  simp

theorem quotients_pos {x y : ℕ} (hy : 0 < y) :
    quotients x y = x / y + quotients y (x % y) := by
  rw [quotients]
  simp [Nat.ne_of_gt hy]

/-- Dividing the smaller number by the greater one only exchanges them. -/
theorem quotients_comm (x y : ℕ) : quotients x y = quotients y x := by
  have hlt {a b : ℕ} (h : a < b) : quotients a b = quotients b a := by
    rw [quotients_pos (by omega), Nat.div_eq_of_lt h, Nat.mod_eq_of_lt h, Nat.zero_add]
  rcases Nat.lt_trichotomy x y with h | rfl | h
  · exact hlt h
  · rfl
  · exact (hlt h).symm

/-- A subtraction takes one from the first quotient. -/
theorem quotients_sub {x y z : ℕ} (hy : 0 < y) (hz : z + y = x) :
    quotients x y = quotients z y + 1 := by
  subst hz
  rw [quotients_pos hy, quotients_pos hy, Nat.add_div_right z hy, Nat.add_mod_right]
  omega

theorem quotients_self {x : ℕ} (hx : 0 < x) : quotients x x = 1 := by
  rw [quotients_pos hx, Nat.div_self hx, Nat.mod_self, quotients_zero]

/-- By induction on the sum, with a subtraction at each step. -/
theorem quotients_le {x y n : ℕ} (hx : 0 < x) (hy : 0 < y) (hn : x + y ≤ n) :
    1 ≤ quotients x y ∧ quotients x y ≤ max x y := by
  induction n generalizing x y with
  | zero => omega
  | succ n ih =>
    have hgreater {a b : ℕ} (hb : 0 < b) (hab : b < a) (hle : a + b ≤ n + 1) :
        1 ≤ quotients a b ∧ quotients a b ≤ max a b := by
      obtain ⟨-, hle⟩ := ih (x := a - b) (y := b) (by omega) hb (by omega)
      rw [quotients_sub hb (Nat.sub_add_cancel hab.le)]
      omega
    rcases Nat.lt_trichotomy x y with h | rfl | h
    · rw [quotients_comm, max_comm]
      exact hgreater hx h (by omega)
    · rw [quotients_self hx]
      omega
    · exact hgreater hy h hn

/-- The calls that `gcd` makes, its own included, where it returns. -/
def calls (x y : ℕ) : ℕ := max 1 (quotients x y)

/-- A recursive call with positive arguments needs one call less. -/
theorem quotients_next (hp : Positive p) (h : gcdBody p = .next q) :
    quotients p.1.toNat p.2.toNat = quotients q.1.toNat q.2.toNat + 1 := by
  obtain ⟨-, hsub⟩ := gcdBody_next h
  rcases hsub with ⟨hsub, hsame⟩ | ⟨hsame, hsub⟩
  · rw [quotients_sub hp.2 hsub, hsame]
  · rw [quotients_comm, quotients_sub hp.1 hsub, hsame, quotients_comm]

/-- By induction on the calls allowed. -/
theorem gcd_isSome_iff (hp : Positive p) (k : ℕ) :
    (gcd k p.1 p.2).isSome ↔ quotients p.1.toNat p.2.toNat ≤ k := by
  induction k generalizing p with
  | zero =>
    have hle := (quotients_le hp.1 hp.2 (Nat.le_refl _)).1
    have hnone : gcd 0 p.1 p.2 = none := rfl
    rw [hnone]
    simp
    omega
  | succ k ih =>
    rcases hb : gcdBody p with q | r
    · have hgcd : gcd (k + 1) p.1 p.2 = gcd k q.1 q.2 := by
        rw [gcd, run_next hb, gcd]
      rw [hgcd, ih (hp.next hb).1, quotients_next hp hb]
      omega
    · obtain ⟨heq, rfl⟩ := gcdBody_leave hb
      have hgcd : gcd (k + 1) p.1 p.2 = some p.1 := by
        rw [gcd, run_leave hb]
        rfl
      rw [hgcd, ← heq, quotients_self hp.1]
      simp

theorem gcd_zero (k : ℕ) : (gcd k 0 0).isSome ↔ 1 ≤ k := by
  have hb : gcdBody (0, 0) = .leave (some 0) := rfl
  cases k with
  | zero => simp [gcd, run]
  | succ k =>
    rw [gcd, run_leave hb]
    simp

/-- **When `gcd` returns, and after how many calls**: unless exactly one argument is zero
    it makes as many calls as the quotients of Euclid's algorithm add up to, which is not
    more than the greater argument; with exactly one zero it never returns. -/
theorem gcd_calls (x y : UInt32) (k : ℕ) :
    ((gcd k x y).isSome ↔ (x = 0 ↔ y = 0) ∧ calls x.toNat y.toNat ≤ k) ∧
    calls x.toNat y.toNat ≤ max 1 (max x.toNat y.toNat) := by
  by_cases hx : x = 0
  · subst hx
    by_cases hy : y = 0
    · subst hy
      rw [gcd_zero]
      simp [calls, quotients_zero]
    · have hzero : quotients 0 y.toNat = 0 := by
        rw [quotients_comm, quotients_zero]
      rw [(gcd_hangs hy k).1]
      simp [calls, hzero, hy]
  · by_cases hy : y = 0
    · subst hy
      rw [(gcd_hangs hx k).2]
      simp [calls, quotients_zero, hx]
    · have hpos {z : UInt32} (hz : z ≠ 0) : 0 < z.toNat :=
        Nat.pos_of_ne_zero fun h => hz (UInt32.toNat_inj.1 h)
      have hp : Positive (x, y) := ⟨hpos hx, hpos hy⟩
      have hle := quotients_le (hpos hx) (hpos hy) (Nat.le_refl _)
      have hcalls : calls x.toNat y.toNat = quotients x.toNat y.toNat := by
        unfold calls
        omega
      refine ⟨?_, by omega⟩
      rw [hcalls, gcd_isSome_iff hp k]
      simp [hx, hy]

end CcKernel
