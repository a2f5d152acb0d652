/-
  One processor shared by several processes.

  Every process has a context of its own, and one of them runs.  Whatever the
  running process does changes its own context; a switch passes the processor
  on and changes no context.  This is what a context switch is for: a process
  finds its context as it left it, however long the others have run; and if the
  processor is passed round for ever, it gets as far as it likes.
-/
import Mathlib.Tactic

namespace Multiplex

variable {ι κ : Type*}

structure State (ι κ : Type*) where
  ctx : ι → κ
  cur : ι

inductive Op (κ : Type*) where
  /-- the running process computes -/
  | act (f : κ → κ)
  | stay
  | switch

def Op.IsSwitch : Op κ → Prop
  | switch => True
  | _ => False

instance (o : Op κ) : Decidable o.IsSwitch :=
  match o with
  | .switch => isTrue trivial
  | .act _ => isFalse id
  | .stay => isFalse id

variable [DecidableEq ι] (next : ι → ι)

def State.step (s : State ι κ) : Op κ → State ι κ
  | .act f => { s with ctx := Function.update s.ctx s.cur (f (s.ctx s.cur)) }
  | .stay => s
  | .switch => { s with cur := next s.cur }

variable {next}

theorem State.step_cur {s : State ι κ} {o : Op κ} (h : ¬ o.IsSwitch) :
    (s.step next o).cur = s.cur := by
  cases o with
  | act f => rfl
  | stay => rfl
  | switch => exact absurd trivial h

/-- The contexts of the other processes are frozen. -/
theorem State.step_ctx {s : State ι κ} {i : ι} (hi : i ≠ s.cur) (o : Op κ) :
    (s.step next o).ctx i = s.ctx i := by
  cases o with
  | act f => exact Function.update_of_ne hi _ _
  | stay => rfl
  | switch => rfl

/-- The switches alone decide who runs. -/
theorem cur_foldl (os : List (Op κ)) (s : State ι κ) :
    (os.foldl (State.step next) s).cur = next^[os.countP fun o => o.IsSwitch] s.cur := by
  induction os generalizing s with
  | nil => rfl
  | cons o os ih =>
    rw [List.foldl_cons, ih]
    by_cases h : o.IsSwitch
    · rw [List.countP_cons_of_pos (by simpa using h)]
      cases o with
      | switch => rfl
      | _ => exact h.elim
    · rw [List.countP_cons_of_neg (by simpa using h), State.step_cur h]

/-- What comes next: the running process is given `x`, nothing happens to it, or
    the next one runs. -/
inductive Turn (ξ : Type*) where
  | go (x : ξ)
  | stay
  | switch

variable {ξ : Type*} (f : ι → ξ → κ → κ)

def State.turn (next : ι → ι) (s : State ι κ) : Turn ξ → State ι κ
  | .go x => s.step next (.act (f s.cur x))
  | .stay => s
  | .switch => s.step next .switch

/-- Who runs after a turn. -/
def Turn.pass (next : ι → ι) (cur : ι) : Turn ξ → ι
  | .switch => next cur
  | _ => cur

abbrev running (next : ι → ι) (cur : ι) (ts : List (Turn ξ)) : ι := ts.foldl (Turn.pass next) cur

/-- The first `n` turns of a schedule. -/
def before (ts : ℕ → Turn ξ) (n : ℕ) : List (Turn ξ) := (List.range n).map ts

variable {ts : ℕ → Turn ξ} {cur i : ι}

end Multiplex
