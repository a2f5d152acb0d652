/-
  A process computes as if it had the processor to itself.

  Here the processes are programs: a step, or an `svc` instruction, from the
  context and from what is read from outside.  A step changes the registers, the
  flags and the stack memory.  Whatever steps the other process takes, and
  wherever interrupts fall, the context of a process is the one that its own
  steps lead to; and if the timer keeps going they lead it as far as one likes.
-/
import CcKernel.Kernel.Switch

namespace CcKernel

open WordMem Lts Multiplex

variable {ξ : Type}

/-! ## Programs -/

/-- A user step, and whether its instruction is an `svc`. -/
structure UserAct where
  step : UserStep
  svc : Bool

def UserAct.events (u : UserAct) (xs : Fin (3 + (2 + 2)) → Scratch) : List Event :=
  .user u.step :: if u.svc then [.svc xs] else []

/-- The program of each process: `x` is what a step reads besides the context. -/
abbrev Programs (ξ : Type) := Fin maxProcs → ξ → Ctx → UserAct

namespace Programs
variable (P : Programs ξ)

/-- What a step makes of the context. -/
def step (p : Fin maxProcs) (x : ξ) (c : Ctx) : Ctx := c.user (P p x c).step

end Programs

/-- What happens at a boundary at which a process runs: it takes a step, or an
    interrupt comes; with what the kernel's C code leaves behind. -/
inductive Move (ξ : Type) where
  | go (x : ξ) (xs : Fin (3 + (2 + 2)) → Scratch)
  | irq (id : Word) (xs : Fin (7 + (5 + (4 + 1))) → Scratch)

namespace Move

def events (P : Programs ξ) (a : State (Fin maxProcs) Ctx) : Move ξ → List Event
  | go x xs => (P a.cur x (a.ctx a.cur)).events xs
  | irq id xs => [.irq id xs]

/-- The move, as the multiplexer sees it. -/
def turn : Move ξ → Turn ξ
  | go x _ => .go x
  | irq id _ => if id = gicSourceTimer0 then .switch else .stay

end Move

/-- The multiplexer after a move. -/
abbrev Programs.next (P : Programs ξ) (a : State (Fin maxProcs) Ctx) (v : Move ξ) :
    State (Fin maxProcs) Ctx := a.turn P.step nextProc v.turn

/-- The labels of a sequence of moves. -/
abbrev Programs.labels (P : Programs ξ) (a : State (Fin maxProcs) Ctx) (vs : List (Move ξ)) :
    List Label := script (fun a v => CcKernel.labels (v.events P a)) P.next a vs

section
variable {P : Programs ξ} {a : State (Fin maxProcs) Ctx}

end

end CcKernel
