/-
  Context switches are transparent.

  Seen from USR mode the kernel is a multiplexer (`Multiplex`): a private
  context per process and the index of the running one.  `Refines` connects a
  boundary at which a process runs to such a state: the registers are the
  running process's context, the process table holds the others'.
-/
import CcKernel.Lib.Multiplex
import CcKernel.Kernel.Reset
import CcKernel.Kernel.Traps

namespace CcKernel

open WordMem Lts Multiplex

/-! ## What a process sees -/

/-- A context as its process sees it: of the status register the flags and the
    control field. -/
def Ctx.visible (c : Ctx) : Ctx := { c with cpsr := c.cpsr &&& fieldsFC }

/-- A user step, as its process sees it. -/
def Ctx.user (u : UserStep) (c : Ctx) : Ctx :=
  ⟨psrWrite flagBits c.cpsr u.flags, u.pc, u.gpr, u.sp, u.lr⟩

theorem psrWrite_and {mask k : Word} (h : mask &&& k = mask) (old new : Word) :
    psrWrite mask old new &&& k = psrWrite mask (old &&& k) new := by
  ext i hi
  have hb := congrArg (fun x : Word => x[i]) h
  simp only [BitVec.getElem_and] at hb
  simp only [psrWrite, BitVec.getElem_and, BitVec.getElem_or, BitVec.getElem_not]
  revert hb
  cases mask[i] <;> cases k[i] <;> simp

theorem visible_user (u : UserStep) (c : Ctx) : (c.user u).visible = c.visible.user u := by
  have h := psrWrite_and (by decide : flagBits &&& fieldsFC = flagBits) c.cpsr u.flags
  unfold Ctx.visible Ctx.user
  rw [h]

theorem visible_resume (psr : Word) (c : Ctx) : (resume psr c).visible = c.visible := by
  have h : psrWrite fieldsFC psr c.cpsr &&& fieldsFC = c.cpsr &&& fieldsFC :=
    psrWrite_take (by decide) _ _
  unfold resume Ctx.visible
  rw [h]

theorem userCtx_user (u : UserStep) (m : Machine) : (m.user u).userCtx = m.userCtx.user u := by
  simp [Machine.userCtx, Machine.user, Ctx.user]

/-! ## Events -/

/-- Steps from one boundary at which a process runs to the next: a user step,
    or an exception with what the kernel's C code leaves behind. -/
inductive Event where
  | user (u : UserStep)
  | svc (xs : Fin (3 + (2 + 2)) → Scratch)
  | irq (id : Word) (xs : Fin (7 + (5 + (4 + 1))) → Scratch)

/-- Steps of the kernel. -/
def execs {n : ℕ} (xs : Fin n → Scratch) : List Label := List.ofFn fun i => Label.exec (xs i)

def Event.labels : Event → List Label
  | user u => [.user u]
  | svc xs => .svc :: execs xs
  | irq id xs => .irq id :: execs xs

def Event.op : Event → Op Ctx
  | user u => .act (Ctx.user u)
  | svc _ => .stay
  | irq id _ => if id = gicSourceTimer0 then .switch else .stay

/-- An interrupt of `TIMER0`. -/
def Event.IsTimer : Event → Prop
  | irq id _ => id = gicSourceTimer0
  | _ => False

instance : DecidablePred Event.IsTimer
  | .irq id _ => inferInstanceAs (Decidable (id = gicSourceTimer0))
  | .user _ => isFalse id
  | .svc _ => isFalse id

theorem isSwitch_timer (id : Word) :
    (if id = gicSourceTimer0 then Op.switch else Op.stay : Op Ctx).IsSwitch ↔
      id = gicSourceTimer0 := by
  by_cases hid : id = gicSourceTimer0
  · rw [if_pos hid]; exact iff_of_true trivial hid
  · rw [if_neg hid]; exact iff_of_false (fun h => h) hid

theorem Event.isSwitch_op (e : Event) : e.op.IsSwitch ↔ e.IsTimer := by
  cases e with
  | user u => exact Iff.rfl
  | svc xs => exact Iff.rfl
  | irq id xs => exact isSwitch_timer id

theorem run_execs {im : Image} {m : Machine} {P Q : Machine → Prop} {n : ℕ} (h : im.Path P Q n m)
    (xs : Fin n → Scratch) : ∃ m', run im.step m (execs xs) = some m' ∧ Q m' := by
  refine Goes.serves h (by simp [execs]) fun l hl => ?_
  obtain ⟨i, rfl⟩ := List.mem_ofFn.1 hl
  trivial

/-! ## Refinement -/

/-- The boundary `m` looks like `a` to the processes. -/
structure Refines (L : Layout) (m : Machine) (a : State (Fin maxProcs) Ctx) : Prop where
  atUser : AtUser L m
  executing : m.kernel.executing = some a.cur
  running : m.userCtx.visible = a.ctx a.cur
  frozen : ∀ p ≠ a.cur, (m.kernel.procTab p).ctx.visible = a.ctx p

/-- `schedule`: the other process. -/
abbrev nextProc (p : Fin maxProcs) : Fin maxProcs := p + 1

theorem nextProc_nextProc : ∀ p, nextProc (nextProc p) = p := by decide

theorem AtUser.user {L : Layout} {m : Machine} (h : AtUser L m) (u : UserStep) :
    AtUser L (m.user u) := by
  refine ⟨?_, ?_, ?_, h.executing, h.pids, h.stored⟩
  · exact (psrWrite_keep (by decide) _ _).trans h.psr
  · simp [Machine.user, h.spIrq]
  · simp [Machine.user, h.spSvc]

section Refines
variable {L : Layout} {m m' : Machine} {a : State (Fin maxProcs) Ctx} (h : Refines L m a)
include h

theorem Refines.user (u : UserStep) :
    Refines L (m.user u) (a.step nextProc (.act (Ctx.user u))) := by
  refine ⟨h.atUser.user u, h.executing, ?_, ?_⟩
  · simp [State.step, userCtx_user, visible_user, h.running]
  · intro p hp
    have hp : p ≠ a.cur := hp
    exact (h.frozen p hp).trans (State.step_ctx hp _).symm

theorem Refines.trapped (ht : Trapped m m') : Refines L m' (a.step nextProc .stay) := by
  refine ⟨ht.atUser h.atUser, ht.executing.trans h.executing, ?_, ?_⟩
  · rw [ht.user]; exact h.running
  · intro p hp
    rw [ht.procTab]; exact h.frozen p hp

theorem Refines.interrupted {id : Word} (hi : Interrupted id a.cur m m')
    (hirq : m'.sp .irq = m.sp .irq) (hsvc : m'.sp .svc = m.sp .svc) :
    Refines L m' (a.step nextProc (if id = gicSourceTimer0 then .switch else .stay)) := by
  have hat := hi.atUser h.atUser h.executing hirq hsvc
  cases hi with
  | timer hid hex hs ho hu =>
    rw [if_pos hid]
    refine ⟨hat, hex, ?_, ?_⟩
    · rw [hu, visible_resume]; exact h.frozen _ (next_ne _)
    · -- only the process that was running is frozen anew
      intro p hp
      have hp : p = a.cur := (self_or_next a.cur p).resolve_right hp
      rw [hp, hs]
      exact h.running
  | other hid hex ht hu =>
    rw [if_neg hid]
    refine ⟨hat, hex.trans h.executing, ?_, ?_⟩
    · rw [hu]; exact h.running
    · intro p hp
      rw [ht]; exact h.frozen p hp

end Refines

/-- **One event**: the machine serves it, and the multiplexer follows. -/
theorem refines_step {im : Image} {m : Machine} {a : State (Fin maxProcs) Ctx}
    (h : Refines im.toLayout m a) (e : Event) :
    ∃ m', run im.step m e.labels = some m' ∧
      Refines im.toLayout m' (a.step nextProc e.op) := by
  have hmode := h.atUser.psr.mode
  cases e with
  | user u =>
    refine ⟨m.user u, ?_, h.user u⟩
    rw [Event.labels, run_cons_of (Image.step_user hmode u), run_nil]
  | svc xs =>
    obtain ⟨m', hr, ht⟩ := run_execs (Image.path_svc h.atUser) xs
    exact ⟨m', by rw [Event.labels, run_cons_of (Image.step_svc hmode), hr], h.trapped ht⟩
  | irq id xs =>
    obtain ⟨m', hr, hi, hirq, hsvc, -⟩ := run_execs (Image.path_irq h.atUser h.executing id) xs
    refine ⟨m', ?_, h.interrupted hi hirq hsvc⟩
    rw [Event.labels, run_cons_of (Image.step_irq h.atUser.psr.unmasked id), hr]

/-- The contexts the reset handler builds. -/
def initialCtx (L : Layout) (p : Fin maxProcs) : Ctx :=
  (if p = 0 then newPcb 1 L.tosP1 L.mainP1 else newPcb 2 L.tosP2 L.mainP2).ctx.visible

theorem EntersP1.refines {S : Symbols} {v : Machine} (h : EntersP1 S v) :
    Refines S.toLayout v ⟨initialCtx S.toLayout, 0⟩ := by
  obtain ⟨psr, hu⟩ := h.user
  refine ⟨h.atUser, h.executing, by rw [hu, visible_resume]; rfl, ?_⟩
  intro p hp
  rw [(proc_cases p).resolve_left hp, h.one]
  rfl

/-- The reset path, with its last instruction. -/
theorem Image.path_enter {im : Image} {m : Machine} (h : m.Reset im.toSymbols) :
    im.Path (Busy im.toSymbols) (EntersP1 im.toSymbols) 69 m := by
  show im.Path (Busy im.toSymbols) (EntersP1 im.toSymbols) (68 + 1) m
  refine Goes.seq (path_reset h) fun t ht => ?_
  obtain ⟨v, hv, hstep⟩ := ht.next
  refine ⟨ht.busy, ?_⟩
  intro l hl
  cases l with
  | exec x => exact ⟨v, hstep x, hv⟩
  | _ => exact hl.elim

/-! ## Runs -/

/-- The labels of a sequence of events. -/
abbrev labels (es : List Event) : List Label := es.flatMap Event.labels

theorem foldl_op (es : List Event) (a : State (Fin maxProcs) Ctx) :
    es.foldl (fun a e => a.step nextProc e.op) a = (es.map Event.op).foldl (State.step nextProc) a := by
  rw [List.foldl_map]

theorem refines_run {im : Image} {m : Machine} {a : State (Fin maxProcs) Ctx}
    (h : Refines im.toLayout m a) (es : List Event) :
    ∃ m', run im.step m (labels es) = some m' ∧
      Refines im.toLayout m' ((es.map Event.op).foldl (State.step nextProc) a) := by
  rw [← foldl_op]
  exact run_simulates (R := Refines im.toLayout) (fun _ _ e h => refines_step h e) h es

theorem nextProc_iterate (k : ℕ) : ((nextProc^[k] 0 : Fin maxProcs) : ℕ) = k % 2 := by
  induction k with
  | zero => rfl
  | succ k ih =>
    rw [Function.iterate_succ_apply']
    show (nextProc^[k] 0 + 1 : Fin 2).val = (k + 1) % 2
    rw [Fin.val_add, ih]
    show (k % 2 + 1) % 2 = (k + 1) % 2
    omega

end CcKernel
