/-
  Runs of a labelled machine.

  A machine is a partial step function `step : σ → ε → Option σ`; the labels
  carry everything the machine does not decide itself.  `run` reads off a list
  of labels, `Visits` are the states a run goes through and `Takes` the steps
  it takes.  The rules below turn a fact about one step into a fact about runs.
-/
import Mathlib.Tactic

namespace Lts

variable {σ ε : Type*}

/-- The state after the labels, if every step on the way is defined. -/
def run (step : σ → ε → Option σ) : σ → List ε → Option σ
  | s, [] => some s
  | s, l :: ls => (step s l).bind fun s' => run step s' ls

/-- `t` is a state the run from `s` on the labels goes through. -/
inductive Visits (step : σ → ε → Option σ) : σ → List ε → σ → Prop
  | here (s ls) : Visits step s ls s
  | there {s s' l ls t} : step s l = some s' → Visits step s' ls t → Visits step s (l :: ls) t

/-- The run from `s` on the labels takes the step `l` from `t` to `t'`. -/
inductive Takes (step : σ → ε → Option σ) : σ → List ε → σ → ε → σ → Prop
  | here {s s' l} (ls) : step s l = some s' → Takes step s (l :: ls) s l s'
  | there {s s' l ls t m t'} : step s l = some s' → Takes step s' ls t m t' →
      Takes step s (l :: ls) t m t'

variable {step : σ → ε → Option σ}

@[simp] theorem run_nil (s : σ) : run step s [] = some s := rfl

theorem run_cons (s : σ) (l : ε) (ls : List ε) :
    run step s (l :: ls) = (step s l).bind fun s' => run step s' ls := rfl

theorem run_cons_of {s s' : σ} {l : ε} (h : step s l = some s') (ls : List ε) :
    run step s (l :: ls) = run step s' ls := by rw [run_cons, h]; rfl

theorem run_append (s : σ) (ls ls' : List ε) :
    run step s (ls ++ ls') = (run step s ls).bind fun t => run step t ls' := by
  induction ls generalizing s with
  | nil => rfl
  | cons l ls ih => simp only [List.cons_append, run_cons, ih, Option.bind_assoc]

theorem run_append_of {s t : σ} {ls : List ε} (h : run step s ls = some t) (ls' : List ε) :
    run step s (ls ++ ls') = run step t ls' := by rw [run_append, h]; rfl

/-! ## States reached -/

def Reaches (step : σ → ε → Option σ) (s t : σ) : Prop := ∃ ls, run step s ls = some t

theorem Reaches.refl (s : σ) : Reaches step s s := ⟨[], rfl⟩

theorem Reaches.head {s s' t : σ} {l : ε} (h : step s l = some s') (h' : Reaches step s' t) :
    Reaches step s t := by
  obtain ⟨ls, hr⟩ := h'
  exact ⟨l :: ls, by rw [run_cons_of h, hr]⟩

theorem Reaches.trans {s t u : σ} (h : Reaches step s t) (h' : Reaches step t u) :
    Reaches step s u := by
  obtain ⟨ls, hr⟩ := h
  obtain ⟨ls', hr'⟩ := h'
  exact ⟨ls ++ ls', by rw [run_append_of hr, hr']⟩

/-! ## States visited and steps taken -/

theorem visits_of_run {s t : σ} {ls : List ε} (h : run step s ls = some t) (ls' : List ε) :
    Visits step s (ls ++ ls') t := by
  induction ls generalizing s with
  | nil => cases h; exact .here _ _
  | cons l ls ih =>
    obtain ⟨s', hs, h'⟩ := Option.bind_eq_some_iff.1 h
    exact .there hs (ih h')

theorem takes_append {s t u u' : σ} {ls : List ε} (h : run step s ls = some t) {ls' : List ε}
    {l : ε}
    (hv : Takes step t ls' u l u') : Takes step s (ls ++ ls') u l u' := by
  induction ls generalizing s with
  | nil => cases h; exact hv
  | cons l ls ih =>
    obtain ⟨s', hs, h'⟩ := Option.bind_eq_some_iff.1 h
    exact .there hs (ih h')

theorem Takes.step_eq {s t t' : σ} {ls : List ε} {l : ε} (h : Takes step s ls t l t') :
    step t l = some t' := by
  induction h with
  | here _ hs => exact hs
  | there _ _ ih => exact ih

theorem Takes.visits {s t t' : σ} {ls : List ε} {l : ε} (h : Takes step s ls t l t') :
    Visits step s ls t := by
  induction h with
  | here => exact .here _ _
  | there hs _ ih => exact .there hs ih

theorem Takes.visits_next {s t t' : σ} {ls : List ε} {l : ε} (h : Takes step s ls t l t') :
    Visits step s ls t' := by
  induction h with
  | here ls hs => exact .there hs (.here _ _)
  | there hs _ ih => exact .there hs ih

/-- A step is taken after a first part of the run and before the rest. -/
theorem takes_iff {s t t' : σ} {ls : List ε} {l : ε} : Takes step s ls t l t' ↔
    ∃ pre post, ls = pre ++ l :: post ∧ run step s pre = some t ∧ step t l = some t' := by
  constructor
  · intro h
    induction h with
    | here ls hs => exact ⟨[], ls, rfl, rfl, hs⟩
    | @there _ _ l₀ _ _ _ _ hs _ ih =>
      obtain ⟨pre, post, rfl, hr, hs'⟩ := ih
      exact ⟨l₀ :: pre, post, rfl, by rw [run_cons_of hs, hr], hs'⟩
  · rintro ⟨pre, post, rfl, hr, hs⟩
    exact takes_append hr (.here post hs)

theorem Takes.append {s t t' : σ} {ls : List ε} {l : ε} (h : Takes step s ls t l t')
    (ls' : List ε) : Takes step s (ls ++ ls') t l t' := by
  obtain ⟨pre, post, rfl, hr, hs⟩ := takes_iff.1 h
  exact takes_iff.2 ⟨pre, post ++ ls', by simp, hr, hs⟩

theorem visits_iff {s t : σ} {ls : List ε} : Visits step s ls t ↔
    ∃ pre post, ls = pre ++ post ∧ run step s pre = some t := by
  constructor
  · intro h
    induction h with
    | here s ls => exact ⟨[], ls, rfl, rfl⟩
    | @there _ _ l₀ _ _ hs _ ih =>
      obtain ⟨pre, post, rfl, hr⟩ := ih
      exact ⟨l₀ :: pre, post, rfl, by rw [run_cons_of hs, hr]⟩
  · rintro ⟨pre, post, rfl, hr⟩
    exact visits_of_run hr post

/-! ## The rules -/

/-- Every step the run takes meets `P`. -/
def AllSteps (step : σ → ε → Option σ) (s : σ) (ls : List ε) (P : σ → ε → Prop) : Prop :=
  ∀ t l t', Takes step s ls t l t' → P t l

theorem AllSteps.tail {s s' : σ} {l : ε} {ls : List ε} {P : σ → ε → Prop}
    (h : AllSteps step s (l :: ls) P) (hs : step s l = some s') : AllSteps step s' ls P :=
  fun t m t' ht => h t m t' (.there hs ht)

/-- **The invariant rule**: what holds at the start and is preserved by every
    step that meets `P` holds wherever a run of such steps goes. -/
theorem Visits.invariant {Inv : σ → Prop} {P : σ → ε → Prop}
    (hstep : ∀ s l s', P s l → Inv s → step s l = some s' → Inv s')
    {s t : σ} {ls : List ε} (h : Visits step s ls t) (hP : AllSteps step s ls P) (hs : Inv s) :
    Inv t := by
  induction h with
  | here => exact hs
  | there hl _ ih => exact ih (hP.tail hl) (hstep _ _ _ (hP _ _ _ (.here _ hl)) hs hl)

theorem allSteps_nil (s : σ) (P : σ → ε → Prop) : AllSteps step s [] P := by
  intro t l t' ht
  cases ht

theorem allSteps_cons {s s' : σ} {l : ε} {ls : List ε} {P : σ → ε → Prop}
    (hs : step s l = some s') : AllSteps step s (l :: ls) P ↔ P s l ∧ AllSteps step s' ls P := by
  constructor
  · intro h
    exact ⟨h _ _ _ (.here ls hs), h.tail hs⟩
  · rintro ⟨hP, h⟩ t m t' ht
    cases ht with
    | here => exact hP
    | there hs₂ ht₂ =>
      obtain rfl := Option.some.inj (hs.symm.trans hs₂)
      exact h t m t' ht₂

theorem AllSteps.left {s : σ} {ls ls' : List ε} {P : σ → ε → Prop}
    (h : AllSteps step s (ls ++ ls') P) : AllSteps step s ls P :=
  fun t l t' ht => h t l t' (ht.append ls')

theorem allSteps_append {s t : σ} {ls ls' : List ε} {P : σ → ε → Prop}
    (hr : run step s ls = some t) :
    AllSteps step s (ls ++ ls') P ↔ AllSteps step s ls P ∧ AllSteps step t ls' P := by
  induction ls generalizing s with
  | nil =>
    obtain rfl : s = t := Option.some.inj hr
    simp [allSteps_nil]
  | cons l ls ih =>
    obtain ⟨s', hs, h'⟩ := Option.bind_eq_some_iff.1 hr
    rw [List.cons_append, allSteps_cons hs, allSteps_cons hs, ih h', and_assoc]

/-- **The shadow rule**: a state that follows the labels beside the machine, and
    what every step that meets `P` keeps between the two. -/
theorem run_shadow {τ : Type*} {next : τ → ε → τ} {R : σ → τ → Prop} {P : σ → ε → Prop}
    (hstep : ∀ s a l s', P s l → R s a → step s l = some s' → R s' (next a l))
    {s t : σ} {a : τ} {ls : List ε} (h : run step s ls = some t) (hP : AllSteps step s ls P)
    (hs : R s a) : R t (ls.foldl next a) := by
  induction ls generalizing s a with
  | nil =>
    obtain rfl : s = t := Option.some.inj h
    exact hs
  | cons l ls ih =>
    obtain ⟨s', hs', h'⟩ := Option.bind_eq_some_iff.1 h
    rw [allSteps_cons hs'] at hP
    exact ih h' hP.2 (hstep s a l s' hP.1 hs hs')

/-- **The since rule**: what a step from `M` establishes and every step keeps
    holds once such a step has been taken. -/
theorem run_since {I : σ → Prop} {P M : σ → ε → Prop}
    (hstep : ∀ s l s', P s l → I s ∨ M s l → step s l = some s' → I s')
    {s t : σ} {ls : List ε} (h : run step s ls = some t) (hP : AllSteps step s ls P)
    (hM : ∃ u l u', Takes step s ls u l u' ∧ M u l) : I t := by
  obtain ⟨u, l, u', htake, hm⟩ := hM
  obtain ⟨pre, post, rfl, hpre, hs⟩ := takes_iff.1 htake
  have hu : I u' := hstep u l u' (hP u l u' htake) (Or.inr hm) hs
  rw [run_append_of hpre, run_cons_of hs] at h
  have hpost : AllSteps step u' post P := ((allSteps_append hpre).1 hP).2.tail hs
  have hv : Visits step u' post t := by simpa using visits_of_run h []
  exact hv.invariant (fun v l v' hl hi hs => hstep v l v' hl (Or.inl hi) hs) hpost hu

/-- What labels from `E` preserve. -/
theorem run_invariant {Inv : σ → Prop} {E : ε → Prop}
    (hstep : ∀ s l s', E l → Inv s → step s l = some s' → Inv s')
    {s t : σ} {ls : List ε} (h : run step s ls = some t) (hE : ∀ l ∈ ls, E l) (hs : Inv s) :
    Inv t := by
  induction ls generalizing s with
  | nil =>
    obtain rfl : s = t := Option.some.inj h
    exact hs
  | cons l ls ih =>
    obtain ⟨s', hs', h'⟩ := Option.bind_eq_some_iff.1 h
    have hl : Inv s' := hstep s l s' (hE l (by simp)) hs hs'
    exact ih h' (fun m hm => hE m (by simp [hm])) hl

/-- **The monitor rule**: if a step keeps `Good` exactly if it meets `P`, and
    never brings it back, a run keeps it exactly if all its steps meet `P`. -/
theorem good_iff {Inv Good : σ → Prop} {P : σ → ε → Prop}
    (hinv : ∀ s l s', Inv s → step s l = some s' → Inv s')
    (hgood : ∀ s l s', Inv s → step s l = some s' → (Good s' ↔ Good s ∧ P s l))
    {s t : σ} {ls : List ε} (h : run step s ls = some t) (hs : Inv s) :
    Good t ↔ Good s ∧ AllSteps step s ls P := by
  induction ls generalizing s with
  | nil =>
    obtain rfl : s = t := Option.some.inj h
    simp [allSteps_nil]
  | cons l ls ih =>
    obtain ⟨s', hs', h'⟩ := Option.bind_eq_some_iff.1 h
    rw [ih h' (hinv s l s' hs hs'), hgood s l s' hs hs', allSteps_cons hs', and_assoc]

/-- **The simulation rule**: if every label of `ε'` is served by a list of
    labels of the machine, and serving one keeps `R`, then a list of them is
    served, and the abstract machine follows. -/
theorem run_simulates {ε' τ : Type*} {serve : ε' → List ε} {next : τ → ε' → τ} {R : σ → τ → Prop}
    (hstep : ∀ s a e, R s a → ∃ s', run step s (serve e) = some s' ∧ R s' (next a e))
    {s : σ} {a : τ} (h : R s a) (es : List ε') :
    ∃ s', run step s (es.flatMap serve) = some s' ∧ R s' (es.foldl next a) := by
  induction es generalizing s a with
  | nil => exact ⟨s, rfl, h⟩
  | cons e es ih =>
    obtain ⟨s₁, hr₁, h₁⟩ := hstep s a e h
    obtain ⟨s₂, hr₂, h₂⟩ := ih h₁
    exact ⟨s₂, by rw [List.flatMap_cons, run_append_of hr₁, hr₂], h₂⟩

/-- The labels that serve each element of a list in the abstract state it is
    served in. -/
def script {ε' τ : Type*} (serve : τ → ε' → List ε) (next : τ → ε' → τ) : τ → List ε' → List ε
  | _, [] => []
  | a, e :: es => serve a e ++ script serve next (next a e) es

/-- From `s`, any `n` labels from `E` are taken; the states on the way satisfy
    `P`, the one after them `Q`. -/
def Goes (step : σ → ε → Option σ) (E : ε → Prop) (P Q : σ → Prop) : ℕ → σ → Prop
  | 0, s => Q s
  | n + 1, s => P s ∧ ∀ l, E l → ∃ s', step s l = some s' ∧ Goes step E P Q n s'

variable {E : ε → Prop} {P P' Q Q' : σ → Prop}

theorem Goes.mono (hP : ∀ s, P s → P' s) (hQ : ∀ s, Q s → Q' s) {n : ℕ} {s : σ}
    (h : Goes step E P Q n s) : Goes step E P' Q' n s := by
  induction n generalizing s with
  | zero => exact hQ s h
  | succ n ih =>
    refine ⟨hP s h.1, fun l hl => ?_⟩
    obtain ⟨s', hs, h'⟩ := h.2 l hl
    exact ⟨s', hs, ih h'⟩

theorem Goes.mono_left {n : ℕ} {s : σ} (h : Goes step E P Q n s) (hP : ∀ s, P s → P' s) :
    Goes step E P' Q n s := h.mono hP fun _ hQ => hQ

theorem Goes.mono_right {n : ℕ} {s : σ} (h : Goes step E P Q n s) (hQ : ∀ s, Q s → Q' s) :
    Goes step E P Q' n s := h.mono (fun _ hP => hP) hQ

/-- What two walks along a path have seen. -/
theorem Goes.and {n : ℕ} {s : σ} (h : Goes step E P Q n s) (h' : Goes step E P' Q' n s) :
    Goes step E (fun s => P s ∧ P' s) (fun s => Q s ∧ Q' s) n s := by
  induction n generalizing s with
  | zero => exact ⟨h, h'⟩
  | succ n ih =>
    refine ⟨⟨h.1, h'.1⟩, fun l hl => ?_⟩
    obtain ⟨s₁, hs₁, h₁⟩ := h.2 l hl
    obtain ⟨s₂, hs₂, h₂⟩ := h'.2 l hl
    obtain rfl : s₁ = s₂ := Option.some.inj (hs₁.symm.trans hs₂)
    exact ⟨s₁, hs₁, ih h₁ h₂⟩

/-- Two paths, one after the other. -/
theorem Goes.seq {n k : ℕ} {s : σ} (h : Goes step E P Q n s)
    (hk : ∀ t, Q t → Goes step E P Q' k t) : Goes step E P Q' (n + k) s := by
  induction n generalizing s with
  | zero => rw [Nat.zero_add]; exact hk s h
  | succ n ih =>
    rw [Nat.succ_add]
    refine ⟨h.1, fun l hl => ?_⟩
    obtain ⟨s', hs, h'⟩ := h.2 l hl
    exact ⟨s', hs, ih h'⟩

/-- A path serves any labels from `E`. -/
theorem Goes.serves {n : ℕ} {s : σ} (h : Goes step E P Q n s) {ls : List ε} (hlen : ls.length = n)
    (hE : ∀ l ∈ ls, E l) : ∃ s', run step s ls = some s' ∧ Q s' := by
  induction n generalizing s ls with
  | zero =>
    rw [List.length_eq_zero_iff] at hlen; subst hlen
    exact ⟨s, rfl, h⟩
  | succ n ih =>
    rcases ls with _ | ⟨l, ls⟩
    · simp at hlen
    · obtain ⟨s', hs, h'⟩ := h.2 l (hE l (by simp))
      obtain ⟨t, ht, hQ⟩ := ih h' (by simpa using hlen) fun l' hl' => hE l' (by simp [hl'])
      exact ⟨t, by rw [run_cons_of hs, ht], hQ⟩

/-! Where the states of a path take no other labels, a run cannot leave it. -/

section Confined

variable (hE : ∀ s l s', P s → step s l = some s' → E l)
include hE

/-- A run no longer than the path stays on it. -/
theorem Goes.visits {n : ℕ} {s t : σ} {ls : List ε} (h : Goes step E P Q n s)
    (hlen : ls.length ≤ n) (hv : Visits step s ls t) : P t ∨ Q t := by
  induction hv generalizing n with
  | here s ls =>
    rcases n with _ | n
    · exact Or.inr h
    · exact Or.inl h.1
  | @there s s' l ls t hs _ ih =>
    rcases n with _ | n
    · simp at hlen
    · obtain ⟨s'', hs', h'⟩ := h.2 l (hE _ _ _ h.1 hs)
      obtain rfl : s' = s'' := Option.some.inj (hs.symm.trans hs')
      exact ih h' (by simpa using hlen)

theorem Goes.takes {n : ℕ} {s t t' : σ} {l : ε} {ls : List ε} (h : Goes step E P Q n s)
    (hlen : ls.length ≤ n) (ht : Takes step s ls t l t') : P t := by
  induction ht generalizing n with
  | here ls hs =>
    rcases n with _ | n
    · simp at hlen
    · exact h.1
  | @there s s' l ls t m t' hs _ ih =>
    rcases n with _ | n
    · simp at hlen
    · obtain ⟨s'', hs', h'⟩ := h.2 l (hE _ _ _ h.1 hs)
      obtain rfl : s' = s'' := Option.some.inj (hs.symm.trans hs')
      exact ih h' (by simpa using hlen)

/-- A longer run comes to the path's end, -/
theorem Goes.reaches {n : ℕ} {s u : σ} {ls : List ε} (h : Goes step E P Q n s)
    (hr : run step s ls = some u) (hlen : n ≤ ls.length) :
    ∃ t, Q t ∧ run step s (ls.take n) = some t ∧ run step t (ls.drop n) = some u := by
  induction n generalizing s ls with
  | zero => exact ⟨s, h, rfl, hr⟩
  | succ n ih =>
    rcases ls with _ | ⟨l, ls⟩
    · simp at hlen
    · obtain ⟨s', hs, hr'⟩ := Option.bind_eq_some_iff.1 hr
      obtain ⟨s'', hs', h'⟩ := h.2 l (hE _ _ _ h.1 hs)
      obtain rfl : s' = s'' := Option.some.inj (hs.symm.trans hs')
      obtain ⟨t, hQ, ht, hu⟩ := ih h' hr' (by simpa using hlen)
      exact ⟨t, hQ, by rw [List.take_succ_cons, run_cons_of hs, ht], hu⟩

/-- and takes a step from there. -/
theorem Goes.leaves {n : ℕ} {s u : σ} {ls : List ε} (h : Goes step E P Q n s)
    (hr : run step s ls = some u) (hlen : n < ls.length) :
    ∃ t l t', Q t ∧ Takes step s ls t l t' := by
  obtain ⟨t, hQ, ht, hu⟩ := h.reaches hE hr hlen.le
  have hls : ls = ls.take n ++ ls[n] :: ls.drop (n + 1) := by
    rw [← List.drop_eq_getElem_cons hlen, List.take_append_drop]
  rw [List.drop_eq_getElem_cons hlen] at hu
  obtain ⟨t', hs, -⟩ := Option.bind_eq_some_iff.1 hu
  exact ⟨t, ls[n], t', hQ, takes_iff.2 ⟨_, _, hls, ht, hs⟩⟩

/-- If no step on the path meets `M` and every step from its end does, the runs
    without such steps are those no longer than the path. -/
theorem Goes.avoids_iff {M : σ → ε → Prop} (hP : ∀ s l, P s → ¬ M s l)
    (hQ : ∀ s l s', Q s → step s l = some s' → M s l) {n : ℕ} {s u : σ} {ls : List ε}
    (h : Goes step E P Q n s) (hr : run step s ls = some u) :
    (AllSteps step s ls fun t l => ¬ M t l) ↔ ls.length ≤ n := by
  constructor
  · intro hsteps
    by_contra hlen
    obtain ⟨t, l, t', hQt, htake⟩ := h.leaves hE hr (by omega)
    exact hsteps t l t' htake (hQ t l t' hQt htake.step_eq)
  · intro hlen t l t' htake
    exact hP t l (h.takes hE hlen htake)

end Confined

end Lts
