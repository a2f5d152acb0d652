/-
  Fair runs.

  A `Trace` is a run without an end; at some of its moments nothing happens.  It
  is fair to a class of labels if the class cannot be enabled for ever without
  one of its labels being taken.

  If every step leaves the state as it is or comes closer to an end, a trace
  comes to rest (`Trace.rests`), and there a class it is fair to is either
  disabled or takes a step that changes nothing (`Trace.Fair.idles`).  `play`
  makes traces by offering labels in turn.
-/
import CcKernel.Lib.Run

namespace Lts

variable {σ ε : Type*} {step : σ → ε → Option σ} {P : ε → Prop}

structure Trace (step : σ → ε → Option σ) where
  state : ℕ → σ
  event : ℕ → Option ε
  moves : ∀ i, (event i).elim (some (state i)) (step (state i)) = some (state (i + 1))

/-- A label of the class can be taken. -/
def Enabled (step : σ → ε → Option σ) (P : ε → Prop) (s : σ) : Prop :=
  ∃ l t, P l ∧ step s l = some t

namespace Trace

/-- Weak fairness. -/
def Fair (tr : Trace step) (P : ε → Prop) : Prop :=
  ∀ i, (∀ j, i ≤ j → Enabled step P (tr.state j)) → ∃ j l, i ≤ j ∧ P l ∧ tr.event j = some l

/-- From the moment `i` on nothing changes. -/
def RestsAt (tr : Trace step) (i : ℕ) : Prop := ∀ j, i ≤ j → tr.state j = tr.state i

variable (tr : Trace step)

theorem state_succ (i : ℕ) : tr.state (i + 1) = tr.state i ∨
    ∃ l, tr.event i = some l ∧ step (tr.state i) l = some (tr.state (i + 1)) := by
  have h := tr.moves i
  rcases he : tr.event i with _ | l
  · rw [he] at h
    exact Or.inl (Option.some.inj h).symm
  · rw [he] at h
    exact Or.inr ⟨l, rfl, h⟩

/-- The labels taken before the moment `i`. -/
def labels : ℕ → List ε
  | 0 => []
  | i + 1 => labels i ++ (tr.event i).toList

/-- Up to any moment a trace is a run. -/
theorem run_labels (i : ℕ) : run step (tr.state 0) (tr.labels i) = some (tr.state i) := by
  induction i with
  | zero => rfl
  | succ i ih =>
    have h := tr.moves i
    rw [labels, run_append_of ih]
    rcases he : tr.event i with _ | l
    · rw [he] at h
      exact h
    · rw [he] at h
      exact run_cons_of h []

theorem visits (i : ℕ) : Visits step (tr.state 0) (tr.labels i) (tr.state i) := by
  have h := visits_of_run (tr.run_labels i) []
  rwa [List.append_nil] at h

/-! ## Rest -/

variable {tr}

/-- **The variant rule**: if every step keeps the state or goes down, a trace
    comes to rest. -/
theorem rests {R : σ → ℕ → Prop}
    (hR : ∀ s l t k, R s k → step s l = some t → t = s ∨ ∃ k', k' < k ∧ R t k')
    {k : ℕ} (h : R (tr.state 0) k) : ∃ i, tr.RestsAt i := by
  suffices hgen : ∀ k i, R (tr.state i) k → ∃ i', tr.RestsAt i' from hgen k 0 h
  intro k
  induction k using Nat.strong_induction_on with
  | _ k ih =>
    intro i hi
    have hdown : ∀ j, i ≤ j → tr.state j = tr.state i ∨ ∃ k', k' < k ∧ R (tr.state j) k' := by
      intro j hj
      induction j, hj using Nat.le_induction with
      | base => exact Or.inl rfl
      | succ j hj hij =>
        rcases tr.state_succ j with heq | ⟨l, -, hs⟩
        · rwa [heq]
        · rcases hij with heq | ⟨k', hk', hR'⟩
          · rw [heq] at hs
            exact hR _ _ _ _ hi hs
          · rcases hR _ _ _ _ hR' hs with heq | ⟨k'', hk'', hR''⟩
            · exact Or.inr ⟨k', hk', by rwa [heq]⟩
            · exact Or.inr ⟨k'', hk''.trans hk', hR''⟩
    by_cases hrest : tr.RestsAt i
    · exact ⟨i, hrest⟩
    · simp only [RestsAt, not_forall] at hrest
      obtain ⟨j, hj, hne⟩ := hrest
      rcases hdown j hj with heq | ⟨k', hk', hR'⟩
      · exact absurd heq hne
      · exact ih k' hk' j hR'

/-- At rest a fair class that can move does not change anything. -/
theorem Fair.idles (hf : tr.Fair P) {i : ℕ} (hrest : tr.RestsAt i)
    (he : Enabled step P (tr.state i)) : ∃ l, P l ∧ step (tr.state i) l = some (tr.state i) := by
  obtain ⟨j, l, hj, hl, hev⟩ := hf i fun j hj => by rwa [hrest j hj]
  have hm := tr.moves j
  rw [hev, hrest j hj, hrest (j + 1) (by omega)] at hm
  exact ⟨l, hl, hm⟩

/-! ## Taking turns -/

variable {turn : ℕ → σ → ε}

/-- The state at each moment, if `turn i` chooses what is tried at the moment `i`. -/
def playState (step : σ → ε → Option σ) (turn : ℕ → σ → ε) (s : σ) : ℕ → σ
  | 0 => s
  | i + 1 =>
    let t := playState step turn s i
    (step t (turn i t)).getD t

def play (step : σ → ε → Option σ) (turn : ℕ → σ → ε) (s : σ) : Trace step where
  state := playState step turn s
  event i :=
    let t := playState step turn s i
    (step t (turn i t)).map fun _ => turn i t
  moves i := by
    rw [playState]
    dsimp only
    generalize playState step turn s i = t
    rcases hs : step t (turn i t) with _ | t'
    · rfl
    · exact hs

theorem play_zero (s : σ) : (play step turn s).state 0 = s := rfl

/-- A class is served if time and again it is offered a label whenever it can move. -/
theorem play_fair (h : ∀ i, ∃ j, i ≤ j ∧ ∀ s, Enabled step P s →
    P (turn j s) ∧ ∃ t, step s (turn j s) = some t) (s : σ) : (play step turn s).Fair P := by
  intro i henabled
  obtain ⟨j, hj, hturn⟩ := h i
  obtain ⟨hP, t, ht⟩ := hturn _ (henabled j hj)
  refine ⟨j, _, hj, hP, ?_⟩
  have hev : (play step turn s).event j = (step ((play step turn s).state j)
      (turn j ((play step turn s).state j))).map fun _ => turn j ((play step turn s).state j) := rfl
  rw [hev, ht]
  rfl

end Trace

end Lts
