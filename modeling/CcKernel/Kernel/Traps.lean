/-
  The paths through the IRQ and the SVC handler.

  Each is a straight line: save, call the high-level handler, restore.  The
  lemmas below run them from a boundary at which a process runs, and say what
  the state is at the call and at the end.
-/
import CcKernel.Kernel.Paths

namespace CcKernel

open WordMem Lts

/-! ## The IRQ handler -/

/-- What the IRQ handler saves. -/
def Machine.saved (m : Machine) : Ctx := ⟨m.spsr .irq, m.lr .irq - 4, m.gpr, m.sp .usr, m.lr .usr⟩

/-- The call of `hilevel_handler_irq`: the context is on the IRQ stack, and r0
    points to it. -/
def Machine.irqCall (S : Symbols) (m : Machine) : Machine :=
  { m with
    gpr := Function.update m.gpr 0 (m.sp .irq - 68)
    sp := Function.update m.sp .irq (m.sp .irq - 68)
    lr := Function.update m.lr .irq (S.lolevelHandlerIrq + BitVec.ofNat 32 (4 * 7))
    pc := S.hilevelHandlerIrq
    kernel.mem := m.saved.toMem (m.sp .irq - 68) m.mem }

theorem irqCall_sp (S : Symbols) (m : Machine) : (m.irqCall S).sp .irq = m.sp .irq - 68 := by
  simp [Machine.irqCall]

theorem irqCall_r0 (S : Symbols) (m : Machine) : (m.irqCall S).gpr 0 = (m.irqCall S).sp .irq := by
  simp [Machine.irqCall]

theorem irqCall_block (S : Symbols) (m : Machine) :
    Ctx.ofMem (m.irqCall S).mem ((m.irqCall S).sp .irq) = m.saved := by
  have hmem : (m.irqCall S).mem = m.saved.toMem (m.sp .irq - 68) m.mem := rfl
  rw [irqCall_sp, hmem, Ctx.ofMem_toMem]

namespace Image
variable {im : Image} {m : Machine} {P : Machine → Prop}

theorem path_irqCall (hpc : m.pc = im.lolevelHandlerIrq) (hμ : m.mode = some .irq)
    (hP : ∀ t : Machine, t.cpsr = m.cpsr → t.kernel.procTab = m.kernel.procTab →
      t.kernel.executing = m.kernel.executing → P t) :
    im.Path P (· = m.irqCall im.toSymbols) 7 m := by
  have hc := im.irqCode
  have h0 : m.pc = im.lolevelHandlerIrq + BitVec.ofNat 32 (4 * 0) := by rw [hpc]; simp
  have h1 := pc_step h0
  have h2 := pc_step h1
  have h3 := pc_step h2
  have h4 := pc_step h3
  have h5 := pc_step h4
  have h6 := pc_step h5
  have hp := Mode.irq_ne_usr
  refine Path.instr 0 hc rfl h0 hμ hp (hP _ rfl rfl rfl) fun _ => ⟨_, rfl, ?_⟩
  refine Path.instr 1 hc rfl h1 hμ hp (hP _ rfl rfl rfl) fun _ => ⟨_, rfl, ?_⟩
  refine Path.instr 2 hc rfl h2 hμ hp (hP _ rfl rfl rfl) fun _ => ⟨_, rfl, ?_⟩
  refine Path.instr 3 hc rfl h3 hμ hp (hP _ rfl rfl rfl) fun _ => ⟨_, rfl, ?_⟩
  refine Path.instr 4 hc rfl h4 hμ hp (hP _ rfl rfl rfl) fun _ => ⟨_, rfl, ?_⟩
  refine Path.instr 5 hc rfl h5 hμ hp (hP _ rfl rfl rfl) fun _ => ⟨_, rfl, ?_⟩
  refine Path.instr 6 hc rfl h6 hμ hp (hP _ rfl rfl rfl) fun _ => ⟨_, rfl, ?_⟩
  have hret := pc_step h6
  have hsub : m.sp .irq - 60#32 - 8#32 = m.sp .irq - 68#32 := by bv_omega
  have hmem := m.saved.toMem_eq (m.sp .irq - 68) m.mem
  rw [show m.sp .irq - 68 + 8 = m.sp .irq - 60 by bv_omega] at hmem
  show _ = m.irqCall im.toSymbols
  unfold Machine.irqCall
  rw [← hret, ← hmem]
  simp [Machine.set, Machine.next, Machine.get, Machine.withMem, Machine.mem, Machine.saved, hsub]

end Image

/-- What an interrupt with the given id does to the process table and to the
    context block at `ctx`, the executing process being `p`. -/
inductive HandledIrq (id ctx : Word) (p : Fin maxProcs) (k k' : Kernel) : Prop
  | timer (hid : id = gicSourceTimer0) (executing : k'.executing = some (p + 1))
      (block : Ctx.ofMem k'.mem ctx = (k.procTab (p + 1)).ctx)
      (self : k'.procTab p = { k.procTab p with ctx := Ctx.ofMem k.mem ctx, status := .ready })
      (other : k'.procTab (p + 1) = { k.procTab (p + 1) with status := .executing })
  | other (hid : id ≠ gicSourceTimer0) (executing : k'.executing = k.executing)
      (block : Ctx.ofMem k'.mem ctx = Ctx.ofMem k.mem ctx) (procTab : k'.procTab = k.procTab)

/-- Two kernel states that differ in devices and scratch memory only. -/
structure Agree (ctx : Word) (k k' : Kernel) : Prop where
  executing : k'.executing = k.executing
  procTab : k'.procTab = k.procTab
  block : Ctx.ofMem k'.mem ctx = Ctx.ofMem k.mem ctx

theorem Agree.trans {ctx : Word} {k k' k'' : Kernel} (h : Agree ctx k k') (h' : Agree ctx k' k'') :
    Agree ctx k k'' :=
  ⟨h'.1.trans h.1, h'.2.trans h.2, h'.3.trans h.3⟩

theorem Agree.below {ctx : Word} (ha : ctx.toNat + 68 ≤ 2 ^ 32) (k : Kernel) (m' : Mem) :
    Agree ctx k { k with mem := WordMem.below k.mem ctx m' } :=
  ⟨rfl, rfl, ofMem_below ha⟩

theorem HandledIrq.congr {id ctx : Word} {p : Fin maxProcs} {k k₁ k₂ k' : Kernel}
    (h : Agree ctx k k₁) (h₁ : HandledIrq id ctx p k₁ k₂) (h₂ : Agree ctx k₂ k') :
    HandledIrq id ctx p k k' := by
  cases h₁ with
  | timer hid he hb hs ho =>
    rw [h.procTab] at hb hs ho
    rw [h.block] at hs
    exact .timer hid (h₂.1.trans he) (h₂.3.trans hb) (by rw [h₂.2, hs]) (by rw [h₂.2, ho])
  | other hid he hb ht =>
    exact .other hid (h₂.1.trans (he.trans h.1)) (h₂.3.trans (hb.trans h.3))
      (h₂.2.trans (ht.trans h.2))

theorem handleTimer_spec (id ctx : Word) {p : Fin maxProcs} {k : Kernel}
    (he : k.executing = some p) (hpid : Function.Injective fun q => (k.procTab q).pid) :
    ∃ k', handleTimer id ctx k = some k' ∧ HandledIrq id ctx p k k' := by
  by_cases hid : id = gicSourceTimer0
  · subst hid
    obtain ⟨k', hk', hs⟩ := handleTimer_timer ctx he hpid
    exact ⟨k', hk', .timer rfl hs.executing (by rw [hs.mem, Ctx.ofMem_toMem]) hs.self hs.other⟩
  · exact ⟨k, handleTimer_other hid ctx k, .other hid rfl rfl rfl⟩

/-- If the saved context is a process's, the table keeps holding processes'. -/
theorem HandledIrq.storedOk {id ctx : Word} {p : Fin maxProcs} {k k' : Kernel}
    (h : HandledIrq id ctx p k k') (hk : StoredOk k) (he : k.executing = some p)
    (hc : UserPsr (Ctx.ofMem k.mem ctx).cpsr) : StoredOk k' := by
  have hk : ∀ q, UserPsr (k.procTab q).ctx.cpsr := hk (by rw [he]; rfl)
  intro _ q
  cases h with
  | timer _ _ _ hs ho =>
    obtain rfl | rfl := self_or_next p q
    · rw [hs]; exact hc
    · rw [ho]; exact hk _
  | other _ _ _ ht => rw [ht]; exact hk q

namespace Image
variable {im : Image} {m : Machine} {P : Machine → Prop}

/-- What a call of `hilevel_handler_irq` does. -/
structure IrqReturned (p : Fin maxProcs) (m m' : Machine) : Prop where
  keeps : CKeeps .irq m m'
  pc : m'.pc = m.lr .irq
  frames : m'.frames = m.frames
  kernel : HandledIrq m.kernel.dev.gicc0.iar (m.sp .irq) p m.kernel m'.kernel

theorem path_hilevelHandlerIrq {p : Fin maxProcs} (hpc : m.pc = im.hilevelHandlerIrq)
    (hμ : m.mode = some .irq) (hr0 : m.gpr 0 = m.sp .irq) (hsp : (m.sp .irq).toNat + 68 ≤ 2 ^ 32)
    (he : m.kernel.executing = some p) (hpid : Function.Injective fun q => (m.kernel.procTab q).pid)
    (hst : StoredOk m.kernel) (hctx : UserPsr (Ctx.ofMem m.mem (m.sp .irq)).cpsr)
    (hP : ∀ t : Machine, t.cpsr &&& ~~~flagBits = m.cpsr &&& ~~~flagBits → StoredOk t.kernel → P t) :
    im.Path P (IrqReturned p m) 5 m := by
  have hc := im.hIrqCode
  have hp := Mode.irq_ne_usr
  have h0 : m.pc = im.hilevelHandlerIrq + BitVec.ofNat 32 (4 * 0) := by rw [hpc]; simp
  have h1 := pc_step h0
  have h2 := pc_step h1
  have h3 := pc_step h2
  have h4 := pc_step h3
  -- the entry
  refine Path.stmt 0 hc rfl h0 hμ hp (hP _ rfl hst) rfl ?_
  rintro m₁ hk₁ ⟨hpc₁, hfr₁, x₁, hm₁⟩
  simp only [Machine.mem] at hpc₁ hfr₁ hm₁
  -- `uint32_t id = GICC0->IAR`
  set f : Frame := ⟨m.lr .irq, m.gpr 0, m.kernel.dev.gicc0.iar⟩ with hf
  have hs₁ : CStmt.iar.exec im.toLayout .irq m₁ =
      some { m₁ with frames := f :: m.frames, pc := m₁.pc + 4 } := by
    rw [CStmt.exec, hfr₁, hf, hm₁]
  refine Path.stmt 1 hc rfl (hpc₁.trans h1) ((mode_of_psr hk₁.psr).trans hμ) hp
    (hP _ hk₁.psr (by rw [hm₁]; exact hst)) hs₁ ?_
  rintro m₂ hk₂ ⟨hpc₂, hfr₂, x₂, hm₂⟩
  replace hk₂ := hk₁.trans hk₂
  simp only [Machine.mem, hpc₁, hk₁.sp, hm₁] at hpc₂ hfr₂ hm₂
  -- the `if`
  have hst₂ : StoredOk m₂.kernel := by rw [hm₂]; exact hst
  have he₂ : m₂.kernel.executing = some p := by rw [hm₂]; exact he
  have hctx₂ : Ctx.ofMem m₂.mem (m.sp .irq) = Ctx.ofMem m.mem (m.sp .irq) := by
    rw [Machine.mem, hm₂, ofMem_below hsp, ofMem_below hsp]
  obtain ⟨k₃, hk₃, hirq⟩ :=
    handleTimer_spec f.id (m.sp .irq) he₂ (by rw [hm₂]; exact hpid)
  have hs₂ : CStmt.timer.exec im.toLayout .irq m₂ =
      some { m₂ with kernel := k₃, pc := m₂.pc + 4 } := by
    rw [CStmt.exec, hfr₂, List.head?_cons, Option.bind_some, hf, hr0, hk₃, Option.map_some]
  have hst₃ : StoredOk k₃ := hirq.storedOk hst₂ he₂ (by rw [hctx₂]; exact hctx)
  refine Path.stmt 2 hc rfl (hpc₂.trans h2) ((mode_of_psr hk₂.psr).trans hμ) hp
    (hP _ hk₂.psr hst₂) hs₂ ?_
  rintro m₃ hc₃ ⟨hpc₃, hfr₃, x₃, hm₃⟩
  replace hc₃ := hk₂.trans hc₃
  simp only [Machine.mem, hpc₂, hfr₂, hk₂.sp] at hpc₃ hfr₃ hm₃
  -- `GICC0->EOIR = id`
  have hs₃ : CStmt.eoir.exec im.toLayout .irq m₃ =
      some { m₃ with kernel := endOfInterrupt f.id m₃.kernel, pc := m₃.pc + 4 } := by
    rw [CStmt.exec, hfr₃, List.head?_cons, Option.map_some]
  refine Path.stmt 3 hc rfl (hpc₃.trans h3) ((mode_of_psr hc₃.psr).trans hμ) hp
    (hP _ hc₃.psr (by rw [hm₃]; exact hst₃)) hs₃ ?_
  rintro m₄ hc₄ ⟨hpc₄, hfr₄, x₄, hm₄⟩
  replace hc₄ := hc₃.trans hc₄
  simp only [Machine.mem, hpc₃, hfr₃, hc₃.sp, hm₃] at hpc₄ hfr₄ hm₄
  -- the return
  have hs₄ : CStmt.leave.exec im.toLayout .irq m₄ =
      some { m₄ with frames := m.frames, pc := f.ret } := by
    rw [CStmt.exec, hfr₄]
  refine Path.stmt 4 hc rfl (hpc₄.trans h4) ((mode_of_psr hc₄.psr).trans hμ) hp
    (hP _ hc₄.psr (by rw [hm₄]; exact hst₃)) hs₄ ?_
  rintro m₅ hc₅ ⟨hpc₅, hfr₅, x₅, hm₅⟩
  refine ⟨hc₄.trans hc₅, hpc₅, hfr₅, HandledIrq.congr ?_ hirq ?_⟩
  · rw [hm₂]; exact (Agree.below hsp _ _).trans (Agree.below hsp _ _)
  · rw [hm₅]
    simp only [Machine.mem, hc₄.sp, hm₄]
    exact ⟨rfl, rfl, by simp only [endOfInterrupt, ofMem_below hsp]⟩

end Image

/-- What an IRQ exception taken from process `p` comes to. -/
inductive Interrupted (id : Word) (p : Fin maxProcs) (m m' : Machine) : Prop
  | timer (hid : id = gicSourceTimer0) (executing : m'.kernel.executing = some (p + 1))
      (self : m'.kernel.procTab p = { m.kernel.procTab p with ctx := m.userCtx, status := .ready })
      (other : m'.kernel.procTab (p + 1) = { m.kernel.procTab (p + 1) with status := .executing })
      (user : m'.userCtx = resume m.cpsr (m.kernel.procTab (p + 1)).ctx)
  | other (hid : id ≠ gicSourceTimer0) (executing : m'.kernel.executing = m.kernel.executing)
      (procTab : m'.kernel.procTab = m.kernel.procTab) (user : m'.userCtx = m.userCtx)

theorem Interrupted.atUser {L : Layout} {id : Word} {p : Fin maxProcs} {m m' : Machine}
    (h : AtUser L m) (he : m.kernel.executing = some p) (hi : Interrupted id p m m')
    (hirq : m'.sp .irq = m.sp .irq) (hsvc : m'.sp .svc = m.sp .svc) : AtUser L m' := by
  cases hi with
  | timer _ hex hs ho hu =>
    have hpid : ∀ q, (m'.kernel.procTab q).pid = (m.kernel.procTab q).pid := by
      intro q
      obtain rfl | rfl := self_or_next p q
      · rw [hs]
      · rw [ho]
    have hstored : ∀ q, UserPsr (m'.kernel.procTab q).ctx.cpsr := by
      intro q
      obtain rfl | rfl := self_or_next p q
      · rw [hs]; exact h.psr
      · rw [ho]; exact h.stored _
    have hpsr : UserPsr m'.userCtx.cpsr := by rw [hu]; exact userPsr_resume (h.stored _)
    exact ⟨hpsr, hirq.trans h.spIrq, hsvc.trans h.spSvc, ⟨_, hex⟩, by simpa only [hpid] using h.pids,
      hstored⟩
  | other _ hex ht hu =>
    have hpsr : UserPsr m'.userCtx.cpsr := by rw [hu]; exact h.psr
    exact ⟨hpsr, hirq.trans h.spIrq, hsvc.trans h.spSvc, hex ▸ h.executing, ht ▸ h.pids, ht ▸ h.stored⟩

namespace Image
variable {im : Image} {m : Machine}

/-- The state in which the IRQ handler calls `hilevel_handler_irq`. -/
theorem path_takeIrq (h : AtUser im.toLayout m) (id : Word) :
    im.Path Guarded (· = (m.takeIrq im.toSymbols id).irqCall im.toSymbols) 7
      (m.takeIrq im.toSymbols id) := by
  have hμ : (m.takeIrq im.toSymbols id).mode = some .irq := ofPsr_exceptionPsr _ _
  have hm : (m.takeIrq im.toSymbols id).Masked := exceptionPsr_masked _ _
  refine path_irqCall rfl hμ fun t hpsr ht he => ?_
  refine Guarded.of_psr hμ (by decide) hm (by rw [hpsr]) fun hex q => ?_
  rw [ht]; exact h.stored q

/-- The IRQ handler saves the context of the process it interrupts. -/
theorem saved_takeIrq (S : Symbols) (id : Word) (m : Machine) :
    (m.takeIrq S id).saved = m.userCtx := by
  have hpc : m.pc + 4#32 - 4#32 = m.pc := by bv_omega
  simp [Machine.saved, Machine.takeIrq, Machine.exception, Machine.userCtx, hpc]

/-- **The IRQ path.** -/
theorem path_irq (h : AtUser im.toLayout m) {p : Fin maxProcs} (he : m.kernel.executing = some p)
    (id : Word) :
    im.Path Guarded (fun m' => Interrupted id p m m' ∧ m'.sp .irq = m.sp .irq ∧
      m'.sp .svc = m.sp .svc ∧ m'.frames = m.frames) (7 + (5 + (4 + 1))) (m.takeIrq im.toSymbols id) := by
  refine Goes.seq (path_takeIrq h id) ?_
  rintro t rfl
  set t := (m.takeIrq im.toSymbols id).irqCall im.toSymbols with ht
  have hp := Mode.irq_ne_usr
  have hμ : t.mode = some .irq := ofPsr_exceptionPsr _ _
  have hm : t.Masked := exceptionPsr_masked _ _
  have hsp : t.sp .irq = im.tosIrq - 68 := by
    rw [← h.spIrq, ht, irqCall_sp]; rfl
  have hfit : (t.sp .irq).toNat + 68 ≤ 2 ^ 32 := by
    have := im.toNat_tosIrq; have := im.fits; rw [hsp]; bv_omega
  have hblock : Ctx.ofMem t.mem (t.sp .irq) = m.userCtx := by
    rw [ht, irqCall_block, saved_takeIrq]
  have hst : StoredOk t.kernel := fun _ => h.stored
  have hr0 : t.gpr 0 = t.sp .irq := irqCall_r0 _ _
  refine Goes.seq (path_hilevelHandlerIrq rfl hμ hr0 hfit he h.pids hst
    (by rw [hblock]; exact h.psr) fun u hu hs => Guarded.of_psr hμ hp hm hu hs) ?_
  rintro u ⟨hk, hpc, hfr, hirq⟩
  -- the rest of the handler gives the context block to the process
  have hμu : u.mode = some .irq := (mode_of_psr hk.psr).trans hμ
  have hmu : u.Masked := (masked_of_psr hk.psr).2 hm
  have hstu : StoredOk u.kernel := hirq.storedOk hst he (by rw [hblock]; exact h.psr)
  have hret : u.pc = im.lolevelHandlerIrq + BitVec.ofNat 32 (4 * 7) := by
    rw [hpc, ht]; simp [Machine.irqCall]
  refine Goes.mono_right (path_restore 7 im.irqCode rfl hret hμu hp fun v hv hkv _ =>
    Guarded.of_psr hμu hp hmu (by rw [hv]) (by rw [hkv]; exact hstu)) ?_
  rintro _ rfl
  have hspu : u.sp .irq = t.sp .irq := by rw [hk.sp]
  have hspsr : u.spsr .irq = m.cpsr := by
    rw [hk.spsr]; exact Function.update_self Mode.irq m.cpsr m.spsr
  have huser : (u.restored .irq).userCtx = resume m.cpsr (Ctx.ofMem u.mem (t.sp .irq)) := by
    rw [restored_userCtx, hspsr, hspu]
  refine ⟨?_, ?_, ?_, hfr⟩
  · cases hirq with
    | timer hid hex hb hs ho =>
      rw [show Ctx.ofMem t.kernel.mem (t.sp .irq) = m.userCtx from hblock] at hs
      exact .timer hid hex hs ho (by rw [huser, Machine.mem, hb]; rfl)
    | other hid hex hb hpt =>
      refine .other hid hex hpt ?_
      rw [huser, Machine.mem, hb, show Ctx.ofMem t.kernel.mem (t.sp .irq) = m.userCtx from hblock,
        resume_self]
  · rw [restored_sp hp, hspu, hsp, h.spIrq]; bv_omega
  · rw [restored_sp_of_ne (by decide) (by decide), hk.sp, ht]
    simp [Machine.irqCall, Machine.takeIrq, Machine.exception]

end Image

/-! ## The SVC handler -/

/-- The registers the SVC handler saves. -/
def svcSaved : List Reg := [.r 0, .r 1, .r 2, .r 3, .ip, .lr]

/-- The call of `hilevel_handler_svc`. -/
def Machine.svcCall (S : Symbols) (m : Machine) : Machine :=
  { m with
    sp := Function.update m.sp .svc (m.sp .svc - 24)
    lr := Function.update m.lr .svc (S.lolevelHandlerSvc + BitVec.ofNat 32 (4 * 3))
    pc := S.hilevelHandlerSvc
    kernel.mem := store m.mem (m.sp .svc - 24) (svcSaved.map (m.get .svc)) }

/-- An SVC exception leaves the process, the table and the stacks alone. -/
structure Trapped (m m' : Machine) : Prop where
  user : m'.userCtx = m.userCtx
  spIrq : m'.sp .irq = m.sp .irq
  spSvc : m'.sp .svc = m.sp .svc
  executing : m'.kernel.executing = m.kernel.executing
  procTab : m'.kernel.procTab = m.kernel.procTab
  frames : m'.frames = m.frames

theorem Trapped.atUser {L : Layout} {m m' : Machine} (h : AtUser L m) (ht : Trapped m m') :
    AtUser L m' := by
  have hpsr : m'.cpsr = m.cpsr := congrArg Ctx.cpsr ht.user
  exact ⟨by rw [hpsr]; exact h.psr, ht.spIrq.trans h.spIrq, ht.spSvc.trans h.spSvc,
    ht.executing ▸ h.executing, ht.procTab ▸ h.pids, ht.procTab ▸ h.stored⟩

namespace Image
variable {im : Image} {m : Machine} {P : Machine → Prop}

theorem path_svcCall (hpc : m.pc = im.lolevelHandlerSvc) (hμ : m.mode = some .svc)
    (hP : ∀ t : Machine, t.cpsr = m.cpsr → t.kernel.procTab = m.kernel.procTab →
      t.kernel.executing = m.kernel.executing → P t) :
    im.Path P (· = m.svcCall im.toSymbols) 3 m := by
  have hc := im.svcCode
  have h0 : m.pc = im.lolevelHandlerSvc + BitVec.ofNat 32 (4 * 0) := by rw [hpc]; simp
  have h1 := pc_step h0
  have h2 := pc_step h1
  have hp := Mode.svc_ne_usr
  refine Path.instr 0 hc rfl h0 hμ hp (hP _ rfl rfl rfl) fun _ => ⟨_, rfl, ?_⟩
  refine Path.instr 1 hc rfl h1 hμ hp (hP _ rfl rfl rfl) fun _ => ⟨_, rfl, ?_⟩
  refine Path.instr 2 hc rfl h2 hμ hp (hP _ rfl rfl rfl) fun _ => ⟨_, rfl, ?_⟩
  have hret := pc_step h2
  show _ = m.svcCall im.toSymbols
  unfold Machine.svcCall
  rw [← hret]
  simp [Machine.set, Machine.next, Machine.get, Machine.withMem, Machine.mem, svcSaved, Reg.ip]

/-- A call of `hilevel_handler_svc` does nothing but return. -/
theorem path_hilevelHandlerSvc (hpc : m.pc = im.hilevelHandlerSvc) (hμ : m.mode = some .svc)
    (hP : ∀ t : Machine, t.cpsr &&& ~~~flagBits = m.cpsr &&& ~~~flagBits →
      t.kernel.procTab = m.kernel.procTab → t.kernel.executing = m.kernel.executing → P t) :
    im.Path P (fun m' => CKeeps .svc m m' ∧ m'.pc = m.lr .svc ∧ m'.frames = m.frames ∧
      ∃ x y : Mem, m'.kernel =
        { m.kernel with mem := below (below m.mem (m.sp .svc) x) (m.sp .svc) y }) 2 m := by
  have hc := im.hSvcCode
  have hp := Mode.svc_ne_usr
  have h0 : m.pc = im.hilevelHandlerSvc + BitVec.ofNat 32 (4 * 0) := by rw [hpc]; simp
  have h1 := pc_step h0
  refine Path.stmt 0 hc rfl h0 hμ hp (hP _ rfl rfl rfl) rfl ?_
  rintro m₁ hk₁ ⟨hpc₁, hfr₁, x₁, hm₁⟩
  simp only [Machine.mem] at hpc₁ hfr₁ hm₁
  have hs₁ : CStmt.leave.exec im.toLayout .svc m₁ =
      some { m₁ with frames := m.frames, pc := m.lr .svc } := by
    rw [CStmt.exec, hfr₁]
  refine Path.stmt 1 hc rfl (hpc₁.trans h1) ((mode_of_psr hk₁.psr).trans hμ) hp
    (hP _ hk₁.psr (by rw [hm₁]) (by rw [hm₁])) hs₁ ?_
  rintro m₂ hk₂ ⟨hpc₂, hfr₂, x₂, hm₂⟩
  simp only [Machine.mem, hk₁.sp, hm₁] at hm₂
  exact ⟨hk₁.trans hk₂, hpc₂, hfr₂, x₁, x₂, hm₂⟩

/-- The registers a C function may change, put back. -/
theorem update_scratch {g g' : Fin 13 → Word} (h : ∀ i, ¬ (i < 4 ∨ i = 12) → g' i = g i) :
    Function.update (Function.update (Function.update (Function.update
      (Function.update g' 0 (g 0)) 1 (g 1)) 2 (g 2)) 3 (g 3)) 12 (g 12) = g := by
  funext i
  by_cases hi : i < 4 ∨ i = 12
  · fin_cases i <;> first | rfl | simp at hi
  · have h0 : i ≠ 0 := by rintro rfl; exact hi (by decide)
    have h1 : i ≠ 1 := by rintro rfl; exact hi (by decide)
    have h2 : i ≠ 2 := by rintro rfl; exact hi (by decide)
    have h3 : i ≠ 3 := by rintro rfl; exact hi (by decide)
    have h12 : i ≠ 12 := by rintro rfl; exact hi (by decide)
    simp only [Function.update_of_ne, ne_eq, h0, h1, h2, h3, h12, not_false_eq_true, h i hi]

/-- Below the six words the handler may write, and they stay. -/
theorem load_svcCall (S : Symbols) {s : Machine} (h : ((s.svcCall S).sp .svc).toNat + 24 ≤ 2 ^ 32)
    (x y : Mem) :
    load (below (below (s.svcCall S).mem ((s.svcCall S).sp .svc) x) ((s.svcCall S).sp .svc) y)
      ((s.svcCall S).sp .svc) 6 = svcSaved.map (s.get .svc) := by
  have hmem : (s.svcCall S).mem =
      store s.mem ((s.svcCall S).sp .svc) (svcSaved.map (s.get .svc)) := by
    simp [Machine.svcCall, Machine.mem]
  rw [load_below (BitVec.le_refl _) (by omega), load_below (BitVec.le_refl _) (by omega), hmem]
  exact load_store (by simp [svcSaved])

/-- The registers are those that were saved. -/
theorem exec_ldmia_svcSaved (L : Layout) {s u : Machine}
    (hload : load u.mem (u.sp .svc) 6 = svcSaved.map (s.get .svc))
    (hgpr : ∀ i : Fin 13, ¬ (i < 4 ∨ i = 12) → u.gpr i = s.gpr i) (x : Scratch) :
    (Instr.ldmia .sp svcSaved).exec L .svc x u = some { u with
      gpr := s.gpr
      sp := Function.update u.sp .svc (u.sp .svc + 24)
      lr := Function.update u.lr .svc (s.lr .svc)
      pc := u.pc + 4 } := by
  show some (((u.setAll .svc svcSaved (load u.mem (u.sp .svc) 6)).set .svc
    (u.sp .svc + 24#32) .sp).next) = _
  rw [hload, ← update_scratch hgpr]
  simp [svcSaved, Machine.setAll, Machine.set, Machine.get, Machine.next, Reg.ip]

/-- **The SVC path.** -/
theorem path_svc (h : AtUser im.toLayout m) :
    im.Path Guarded (Trapped m) (3 + (2 + 2)) (m.takeSvc im.toSymbols) := by
  set s := m.takeSvc im.toSymbols with hs
  have hp := Mode.svc_ne_usr
  have hμ : s.mode = some .svc := ofPsr_exceptionPsr _ _
  have hm : s.Masked := exceptionPsr_masked _ _
  have hst : ∀ t : Machine, t.kernel.procTab = s.kernel.procTab → StoredOk t.kernel := by
    intro t ht _ q
    rw [ht]; exact h.stored q
  refine Goes.seq (path_svcCall rfl hμ fun t hpsr ht _ =>
    Guarded.of_psr hμ hp hm (by rw [hpsr]) (hst t ht)) ?_
  rintro t rfl
  set t := s.svcCall im.toSymbols with ht
  refine Goes.seq (path_hilevelHandlerSvc rfl hμ fun u hpsr hu _ =>
    Guarded.of_psr hμ hp hm hpsr (hst u hu)) ?_
  rintro u ⟨hk, hpc, hfr, x, y, hku⟩
  have hμu : u.mode = some .svc := (mode_of_psr hk.psr).trans hμ
  have hmu : u.Masked := (masked_of_psr hk.psr).2 hm
  have hstu : StoredOk u.kernel := hst u (by rw [hku]; rfl)
  have h3 : u.pc = im.lolevelHandlerSvc + BitVec.ofNat 32 (4 * 3) := by
    rw [hpc, ht]; simp [Machine.svcCall]
  have h4 := pc_step h3
  -- the six words on the SVC stack are the registers at the exception
  have hsp : u.sp .svc = m.sp .svc - 24 := by
    rw [hk.sp, ht]; simp [Machine.svcCall, hs, Machine.takeSvc, Machine.exception]
  have hfit : (u.sp .svc).toNat + 24 ≤ 2 ^ 32 := by
    have := im.toNat_tosSvc; have := im.fits; rw [hsp, h.spSvc]; bv_omega
  have hspt : t.sp .svc = u.sp .svc := by rw [hk.sp]
  have hload : load u.mem (u.sp .svc) 6 = svcSaved.map (s.get .svc) := by
    rw [Machine.mem, hku, ← hspt]
    exact load_svcCall im.toSymbols (by rwa [← ht, hspt]) x y
  have hldm := exec_ldmia_svcSaved im.toLayout hload hk.gpr
  have hsp' : u.sp .svc + 24 = m.sp .svc := by rw [hsp]; bv_omega
  have hlrs : s.lr .svc = m.pc := by simp [hs, Machine.takeSvc, Machine.exception]
  have hgprs : s.gpr = m.gpr := rfl
  rw [hsp', hlrs, hgprs] at hldm
  refine Path.instr 3 im.svcCode rfl h3 hμu hp (Guarded.of_psr hμu hp hmu rfl hstu)
    fun x => ⟨_, hldm x, ?_⟩
  refine Path.instr 4 im.svcCode rfl h4 hμu hp (Guarded.of_psr hμu hp hmu rfl hstu)
    fun _ => ⟨_, rfl, ?_⟩
  have hspsr : u.spsr .svc = m.cpsr := by
    rw [hk.spsr]; exact Function.update_self Mode.svc m.cpsr m.spsr
  have hlr : u.lr .usr = m.lr .usr := (hk.lr .usr (by decide)).trans (by
    simp [ht, Machine.svcCall, hs, Machine.takeSvc, Machine.exception])
  have hspo : ∀ ν ≠ Mode.svc, u.sp ν = m.sp ν := fun ν hν => by
    rw [hk.sp]
    simp [ht, Machine.svcCall, hs, Machine.takeSvc, Machine.exception, hν]
  refine ⟨?_, ?_, ?_, ?_, ?_, ?_⟩
  · simp [Machine.userCtx, hspsr, hlr, hspo]
  · simp [hspo]
  · simp
  · simp [hku, ht, Machine.svcCall, hs, Machine.takeSvc, Machine.exception]
  · simp [hku, ht, Machine.svcCall, hs, Machine.takeSvc, Machine.exception]
  · exact hfr

end Image

end CcKernel
