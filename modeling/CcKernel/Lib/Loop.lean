/-
  Loops that may leave with a value: total correctness by an invariant and a
  variant.
-/
import Mathlib.Tactic

namespace Loop

variable {σ ρ : Type*}

/-- What one turn of a loop does. -/
inductive Turn (σ ρ : Type*) where
  | next (s : σ)
  | leave (r : ρ)

/-- At most `k` turns. -/
def run (body : σ → Turn σ ρ) : ℕ → σ → Option ρ
  | 0, _ => none
  | k + 1, s =>
    match body s with
    | .next s' => run body k s'
    | .leave r => some r

variable {body : σ → Turn σ ρ} {s s' : σ} {r : ρ}

theorem run_next (h : body s = .next s') (k : ℕ) : run body (k + 1) s = run body k s' := by
  rw [run, h]

theorem run_leave (h : body s = .leave r) (k : ℕ) : run body (k + 1) s = some r := by
  rw [run, h]

/-- More turns do not change the value. -/
theorem run_mono {k : ℕ} (h : run body k s = some r) (j : ℕ) : run body (k + j) s = some r := by
  induction k generalizing s with
  | zero => cases h
  | succ k ih =>
    rw [show k + 1 + j = k + j + 1 by omega]
    rcases hb : body s with s' | r'
    · rw [run_next hb] at h ⊢
      exact ih h
    · rw [run_leave hb] at h ⊢
      exact h

theorem run_unique {k j : ℕ} {r' : ρ} (h : run body k s = some r) (h' : run body j s = some r') :
    r = r' := by
  have hk := run_mono h j
  have hj := run_mono h' k
  rw [Nat.add_comm, hj] at hk
  exact (Option.some.inj hk).symm

/-- What a turn preserves holds until the loop is left, and a variant that every turn
    makes smaller bounds the number of turns. -/
theorem run_within {I : σ → Prop} {Q : ρ → Prop} (μ : σ → ℕ)
    (hnext : ∀ s s', I s → body s = .next s' → I s' ∧ μ s' < μ s)
    (hleave : ∀ s r, I s → body s = .leave r → Q r) (hs : I s) {k : ℕ} (hk : μ s < k) :
    ∃ r, run body k s = some r ∧ Q r := by
  induction k generalizing s with
  | zero => omega
  | succ k ih =>
    rcases hb : body s with s' | r
    · obtain ⟨hI, hlt⟩ := hnext s s' hs hb
      rw [run_next hb]
      exact ih hI (by omega)
    · exact ⟨r, run_leave hb k, hleave s r hs hb⟩

/-- **The rule for loops**: a loop with an invariant and a variant comes to an end. -/
theorem run_of_variant {I : σ → Prop} {Q : ρ → Prop} (μ : σ → ℕ)
    (hnext : ∀ s s', I s → body s = .next s' → I s' ∧ μ s' < μ s)
    (hleave : ∀ s r, I s → body s = .leave r → Q r) (hs : I s) :
    ∃ k r, run body k s = some r ∧ Q r :=
  ⟨μ s + 1, run_within μ hnext hleave hs (Nat.lt_succ_self _)⟩

/-! ## The turns of a run -/

/-- The states at the start of the turns from `s` on. -/
def Reached (body : σ → Turn σ ρ) : σ → σ → Prop :=
  Relation.ReflTransGen fun s s' => body s = .next s'

/-- What a turn preserves holds at the start of every turn. -/
theorem Reached.inv {I : σ → Prop} (hnext : ∀ s s', I s → body s = .next s' → I s') (hs : I s)
    (h : Reached body s s') : I s' := by
  induction h with
  | refl => exact hs
  | tail _ hb ih => exact hnext _ _ ih hb

/-- A turn that changes nothing is the first of infinitely many. -/
theorem run_fixed (h : body s = .next s) (k : ℕ) : run body k s = none := by
  induction k with
  | zero => rfl
  | succ k ih => rw [run_next h, ih]

end Loop
