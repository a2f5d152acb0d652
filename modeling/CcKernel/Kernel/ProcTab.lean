/-
  The process table over runs of handler calls.

  `TableInv` is what the table should satisfy once the reset handler has
  returned.  `schedule` sets the status of both processes after a switch, the
  reset handler dispatches `P1` and leaves it `STATUS_READY`: so the table is
  `Unmarked` (nothing is `STATUS_EXECUTING`) until the first timer interrupt,
  and satisfies `TableInv` from then on.
-/
import CcKernel.Lib.Run
import CcKernel.Kernel.Hilevel

namespace CcKernel

open WordMem Lts

/-- A call of a handler: `hilevel_handler_irq(ctx)` with `id` in `GICC0->IAR`
    and any contents of the stack memory, or `hilevel_handler_svc()`. -/
inductive Call where
  | irq (id ctx : Word) (mem : Mem)
  | svc

namespace Call

/-- `none` if the handler would dereference `NULL`. -/
def exec (k : Kernel) : Call → Option Kernel
  | irq id ctx mem => hilevelHandlerIrq ctx { k with mem := mem, dev.gicc0.iar := id }
  | svc => some (hilevelHandlerSvc k)

/-- The call handles an interrupt of `TIMER0`. -/
def IsTimer : Call → Prop
  | irq id _ _ => id = gicSourceTimer0
  | svc => False

end Call

/-- The process table invariant. -/
structure TableInv (k : Kernel) : Prop where
  executing : ∃ p, k.executing = some p ∧ (k.procTab p).status = .executing ∧
    ∀ q ≠ p, (k.procTab q).status = .ready
  pids : Function.Injective fun q => (k.procTab q).pid

/-- The process table as the reset handler leaves it. -/
structure Unmarked (k : Kernel) : Prop where
  executing : ∃ p, k.executing = some p
  ready : ∀ q, (k.procTab q).status = .ready
  pids : Function.Injective fun q => (k.procTab q).pid

theorem Unmarked.not_tableInv {k : Kernel} (h : Unmarked k) : ¬ TableInv k := by
  intro hI
  obtain ⟨p, -, hp, -⟩ := hI.executing
  rw [h.ready p] at hp
  cases hp

theorem Booted.unmarked {L : Layout} {ctx : Word} {k k' : Kernel} (h : Booted L ctx k k') :
    Unmarked k' := by
  refine ⟨⟨0, h.executing⟩, fun q => ?_, fun q q' hq => ?_⟩
  · obtain rfl | rfl := proc_cases q
    · rw [h.zero]; rfl
    · rw [h.one]; rfl
  · obtain rfl | rfl := proc_cases q <;> obtain rfl | rfl := proc_cases q' <;>
      simp only [h.zero, h.one, newPcb] at hq ⊢ <;> cases hq

/-! ## One call -/

theorem SameTable.tableInv {k k' : Kernel} (h : SameTable k k') (hI : TableInv k) :
    TableInv k' := by
  obtain ⟨hex, hpid⟩ := hI
  exact ⟨by rwa [h.executing, h.procTab], by rwa [h.procTab]⟩

theorem SameTable.unmarked {k k' : Kernel} (h : SameTable k k') (hU : Unmarked k) :
    Unmarked k' := by
  obtain ⟨hex, hready, hpid⟩ := hU
  exact ⟨by rwa [h.executing], by rwa [h.procTab], by rwa [h.procTab]⟩

theorem Switched.pid {ctx : Word} {p : Fin maxProcs} {k k' : Kernel} (h : Switched ctx p k k')
    (q : Fin maxProcs) : (k'.procTab q).pid = (k.procTab q).pid := by
  obtain rfl | rfl := self_or_next p q
  · rw [h.self]
  · rw [h.other]

/-- A switch marks the process it switches to, and only that one. -/
theorem Switched.tableInv {ctx : Word} {p : Fin maxProcs} {k k' : Kernel} (h : Switched ctx p k k')
    (hpid : Function.Injective fun q => (k.procTab q).pid) : TableInv k' := by
  refine ⟨⟨p + 1, h.executing, by rw [h.other], fun q hq => ?_⟩, ?_⟩
  · rw [(self_or_next p q).resolve_right hq, h.self]
  · simpa only [h.pid] using hpid

/-- One call: the timer establishes the invariant, everything else keeps the
    table as it is. -/
theorem call_spec {k : Kernel} {p : Fin maxProcs} (he : k.executing = some p)
    (hpid : Function.Injective fun q => (k.procTab q).pid) (c : Call) :
    ∃ k', c.exec k = some k' ∧ (c.IsTimer → TableInv k') ∧
      (¬ c.IsTimer → (TableInv k → TableInv k') ∧ (Unmarked k → Unmarked k')) := by
  cases c with
  | svc => exact ⟨k, rfl, False.elim, fun _ => ⟨id, id⟩⟩
  | irq id ctx mem =>
    set k₀ : Kernel := { k with mem := mem, dev.gicc0.iar := id }
    by_cases hid : k₀.dev.gicc0.iar = gicSourceTimer0
    · obtain ⟨k', hk', hs⟩ := hilevelHandlerIrq_timer ctx hid he hpid
      exact ⟨k', hk', fun _ => hs.tableInv hpid, fun h => absurd hid h⟩
    · obtain ⟨k', hk', hs⟩ := hilevelHandlerIrq_other ctx hid
      refine ⟨k', hk', fun h => absurd h hid, fun _ => ⟨fun hI => ?_, fun hU => ?_⟩⟩
      · exact hs.tableInv ⟨hI.1, hI.2⟩
      · exact hs.unmarked ⟨hU.1, hU.2, hU.3⟩

/-! ## Runs -/

/-- Once established, the invariant holds for good. -/
theorem run_of_tableInv (cs : List Call) {k : Kernel} (h : TableInv k) :
    ∃ k', run Call.exec k cs = some k' ∧ TableInv k' := by
  induction cs generalizing k with
  | nil => exact ⟨k, rfl, h⟩
  | cons c cs ih =>
    obtain ⟨p, he, -⟩ := h.executing
    obtain ⟨k₁, hk₁, ht, hn⟩ := call_spec he h.pids c
    have h₁ : TableInv k₁ := by
      by_cases hc : c.IsTimer
      · exact ht hc
      · exact (hn hc).1 h
    obtain ⟨k₂, hk₂, h₂⟩ := ih h₁
    exact ⟨k₂, by rw [run_cons_of hk₁, hk₂], h₂⟩

/-- From a table with nothing marked, the first timer interrupt decides. -/
theorem run_of_unmarked (cs : List Call) {k : Kernel} (h : Unmarked k) :
    ∃ k', run Call.exec k cs = some k' ∧
      (TableInv k' ↔ ∃ c ∈ cs, c.IsTimer) := by
  induction cs generalizing k with
  | nil => exact ⟨k, rfl, by simpa using h.not_tableInv⟩
  | cons c cs ih =>
    obtain ⟨p, he⟩ := h.executing
    obtain ⟨k₁, hk₁, ht, hn⟩ := call_spec he h.pids c
    by_cases hc : c.IsTimer
    · obtain ⟨k₂, hk₂, h₂⟩ := run_of_tableInv cs (ht hc)
      exact ⟨k₂, by rw [run_cons_of hk₁, hk₂], iff_of_true h₂ ⟨c, by simp, hc⟩⟩
    · obtain ⟨k₂, hk₂, h₂⟩ := ih ((hn hc).2 h)
      refine ⟨k₂, by rw [run_cons_of hk₁, hk₂], h₂.trans ?_⟩
      simp [hc]

/-- **The process table invariant** holds after the reset handler and a sequence
    of handler calls iff one of the calls handled an interrupt of `TIMER0`. -/
theorem tableInv_iff (L : Layout) (ctx : Word) (k : Kernel) (cs : List Call) :
    ∃ k', run Call.exec (hilevelHandlerRst L ctx k) cs = some k' ∧
      (TableInv k' ↔ ∃ c ∈ cs, c.IsTimer) :=
  run_of_unmarked cs (hilevelHandlerRst_spec L ctx k).unmarked

/-- As soon as the reset handler has returned, the executing process is
    `STATUS_READY`. -/
theorem not_tableInv_reset :
    (hilevelHandlerRst .image 0x700141dc .cleared).executing = some 0 ∧
    ((hilevelHandlerRst .image 0x700141dc .cleared).procTab 0).status = .ready ∧
    ¬ TableInv (hilevelHandlerRst .image 0x700141dc .cleared) := by
  have h := hilevelHandlerRst_spec .image 0x700141dc .cleared
  exact ⟨h.executing, h.unmarked.ready 0, h.unmarked.not_tableInv⟩

end CcKernel
