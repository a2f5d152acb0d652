/-
  The path from the reset vector to the first instruction of `P1`.

  `lolevel_handler_rst` runs with IRQs masked as far as the `msr cpsr_c` of
  `int_enable_irq`; before it calls C, its `add sp, sp, #68` has moved the
  stack pointer above the top of the stack.
-/
import CcKernel.Kernel.Paths

namespace CcKernel

open WordMem Lts

/-- The top of the stack of a privileged mode. -/
def Layout.tos (L : Layout) : Mode → Word
  | .irq => L.tosIrq
  | _ => L.tosSvc

/-- The instructions of `int_init` and the first five of `lolevel_handler_rst`,
    which load the stack pointers. -/
def Symbols.quietCode (S : Symbols) : List Instr :=
  intInitCode S ++ (lolevelHandlerRstCode S).take 5

/-- An instruction that loads no stack pointer but that of its mode, with the top
    of its stack. -/
structure Instr.Quiet (S : Symbols) (μ : Mode) (i : Instr) : Prop where
  mem : i ∈ S.quietCode
  load : ∀ a, i = .ldrLit .sp a → a = S.tos μ

/-- A boundary before the `add` of `lolevel_handler_rst`, IRQs masked. -/
structure Quiet (im : Image) (t : Machine) : Prop where
  mode : ∃ μ, μ ≠ .usr ∧ t.mode = some μ
  masked : t.Masked
  code : ∃ i, im.fetch t.pc = some i ∧ ∀ μ, t.mode = some μ → i.Quiet im.toSymbols μ
  executing : t.kernel.executing = none

theorem quiet_intInit {S : Symbols} (k : ℕ) {i : Instr} {μ : Mode}
    (hi : (intInitCode S)[k]? = some i) : i.Quiet S μ := by
  have hmem : i ∈ intInitCode S := List.mem_of_getElem? hi
  refine ⟨List.mem_append_left _ hmem, ?_⟩
  rintro a rfl
  simp [intInitCode] at hmem

/-- What `int_init` and the assembly around it leave alone. -/
structure Untouched (m t : Machine) : Prop where
  executing : t.kernel.executing = m.kernel.executing
  frames : t.frames = m.frames

namespace Image
variable {im : Image} {m : Machine} {Q : Machine → Prop}

/-- A masked core in a privileged mode executes its next instruction. -/
theorem isExec_of_masked {m' : Machine} {l : Label} (hμ : ∃ μ, μ ≠ .usr ∧ m.mode = some μ)
    (hm : m.Masked) (h : im.step m l = some m') : l.IsExec := by
  obtain ⟨μ, hp, hμ⟩ := hμ
  have hu : m.mode ≠ some .usr := by
    rw [hμ]; rintro ⟨⟩; exact hp rfl
  rcases step_cases h with ⟨hu', -⟩ | ⟨hu', -⟩ | ⟨hm', -⟩ | ⟨-, x, rfl⟩
  · exact absurd hu' hu
  · exact absurd hu' hu
  · exact absurd hm hm'
  · trivial

theorem isExec_of_svc {m' : Machine} {l : Label} (hμ : m.mode = some .svc) (hm : m.Masked)
    (h : im.step m l = some m') : l.IsExec :=
  isExec_of_masked ⟨.svc, Mode.svc_ne_usr, hμ⟩ hm h

theorem path_quiet {n : ℕ} {base : Word} {is : List Instr} {i : Instr} {μ : Mode} (k : ℕ)
    (hc : CodeAt im.fetch base is) (hi : is[k]? = some i)
    (hpc : m.pc = base + BitVec.ofNat 32 (4 * k)) (hμ : m.mode = some μ) (hp : μ ≠ .usr)
    (hm : m.Masked) (he : m.kernel.executing = none) (hq : i.Quiet im.toSymbols μ)
    (hnext : ∀ x, ∃ m', i.exec im.toLayout μ x m = some m' ∧ im.Path (Quiet im) Q n m') :
    im.Path (Quiet im) Q (n + 1) m :=
  Path.instr k hc hi hpc hμ hp ⟨⟨μ, hp, hμ⟩, hm, ⟨i, hc.fetch_eq hi hpc, fun ν hν => by
    rwa [Option.some.inj (hν.symm.trans hμ)]⟩, he⟩ hnext

/-! ## `int_init` -/

/-- The head of the copying loop, `j` words having been copied. -/
structure Copying (im : Image) (m t : Machine) (j : ℕ) : Prop where
  pc : t.pc = im.toSymbols.intInit + BitVec.ofNat 32 (4 * 3)
  psr : t.cpsr &&& ~~~flagBits = m.cpsr &&& ~~~flagBits
  r1 : t.gpr 1 = im.intData + BitVec.ofNat 32 (4 * j)
  r2 : t.gpr 2 = im.toSymbols.intInit
  lr : t.lr = m.lr
  rest : Untouched m t

/-- `int_init` returns. -/
structure Copied (μ : Mode) (m t : Machine) : Prop where
  pc : t.pc = m.lr μ
  psr : t.cpsr &&& ~~~flagBits = m.cpsr &&& ~~~flagBits
  rest : Untouched m t

variable {μ : Mode} (hμ : m.mode = some μ) (hp : μ ≠ .usr) (hm : m.Masked)
  (he : m.kernel.executing = none)
include hμ hp hm he

/-- One round of the loop. -/
theorem path_round {t : Machine} {j : ℕ} (h : Copying im m t j) :
    im.Path (Quiet im) (fun v => v.pc = (if im.intData + BitVec.ofNat 32 (4 * (j + 1)) =
        im.toSymbols.intInit then im.toSymbols.intInit + BitVec.ofNat 32 (4 * 7)
        else im.toSymbols.intInit + BitVec.ofNat 32 (4 * 3)) ∧
      v.cpsr &&& ~~~flagBits = m.cpsr &&& ~~~flagBits ∧
      v.gpr 1 = im.intData + BitVec.ofNat 32 (4 * (j + 1)) ∧ v.gpr 2 = im.toSymbols.intInit ∧
      v.lr = m.lr ∧ Untouched m v) 4 t := by
  have hc := im.intInitCode
  have h3 := h.pc
  have h4 := pc_step h3
  have h5 := pc_step h4
  have h6 := pc_step h5
  have h7 := pc_step h6
  have hμt : t.mode = some μ := (mode_of_psr h.psr).trans hμ
  have hmt : t.Masked := (masked_of_psr h.psr).2 hm
  have het : t.kernel.executing = none := h.rest.executing.trans he
  have h1 : t.gpr 1 + 4#32 = im.intData + BitVec.ofNat 32 (4 * (j + 1)) := pc_step h.r1
  have hpsr (flags : Word) : psrWrite 0xF0000000 t.cpsr flags &&& ~~~flagBits =
      t.cpsr &&& ~~~flagBits := psrWrite_keep (by decide) _ _
  refine path_quiet 3 hc rfl h3 hμt hp hmt het (quiet_intInit 3 rfl) fun _ => ⟨_, rfl, ?_⟩
  refine path_quiet 4 hc rfl h4 hμt hp hmt het (quiet_intInit 4 rfl) fun _ => ⟨_, rfl, ?_⟩
  refine path_quiet 5 hc rfl h5 hμt hp hmt het (quiet_intInit 5 rfl) fun _ => ⟨_, rfl, ?_⟩
  refine path_quiet 6 hc rfl h6 ((mode_of_psr (hpsr _)).trans hμt) hp ((masked_of_psr (hpsr _)).2 hmt)
    het (quiet_intInit 6 rfl) fun _ => ⟨_, rfl, ?_⟩
  refine ⟨?_, (hpsr _).trans h.psr, ?_, ?_, h.lr, h.rest.executing, h.rest.frames⟩
  · have hz : psrWrite 0xF0000000#32 t.cpsr (Machine.cmpFlags (t.gpr 1 + 4#32) (t.gpr 2)) &&& bitZ =
        if im.intData + BitVec.ofNat 32 (4 * (j + 1)) = im.toSymbols.intInit then bitZ else 0 := by
      rw [psrWrite_take (by decide), Machine.cmpFlags_bitZ, h.r2, ← h1]
    have hne : bitZ ≠ 0#32 := by decide
    have h7' : t.pc + 4#32 + 4#32 + 4#32 + 4#32 = im.toSymbols.intInit + BitVec.ofNat 32 (4 * 7) := h7
    simp only [Machine.set, Machine.next, Machine.get, Machine.withMem]
    by_cases hj : im.intData + BitVec.ofNat 32 (4 * (j + 1)) = im.toSymbols.intInit
    · simp [hz, hj, hne, h7']
    · simp [hz, hj]
  · simpa [Machine.set, Machine.next, Machine.get, Machine.withMem] using h1
  · simpa [Machine.set, Machine.next, Machine.get, Machine.withMem] using h.r2

/-- The loop, by induction on the rounds that are left. -/
theorem path_loop (k : ℕ) {t : Machine} {j : ℕ} (hjk : j + k = 10)
    (h : Copying im m t j) : im.Path (Quiet im) (Copied μ m) (4 * k + (4 + 1)) t := by
  induction k generalizing t j with
  | zero =>
    show im.Path (Quiet im) (Copied μ m) (4 + 1) t
    refine Goes.seq (path_round hμ hp hm he h) ?_
    rintro v ⟨hpc, hpsr, -, -, hlr, hrest⟩
    have hend : im.intData + BitVec.ofNat 32 (4 * (j + 1)) = im.toSymbols.intInit := by
      rw [show j = 10 by omega]; rfl
    rw [if_pos hend] at hpc
    refine path_quiet 7 im.intInitCode rfl hpc ((mode_of_psr hpsr).trans hμ) hp
      ((masked_of_psr hpsr).2 hm) (hrest.executing.trans he) (quiet_intInit 7 rfl)
      fun _ => ⟨_, rfl, ?_⟩
    exact ⟨congrFun hlr μ, hpsr, hrest.executing, hrest.frames⟩
  | succ k ih =>
    rw [show 4 * (k + 1) + (4 + 1) = 4 + (4 * k + (4 + 1)) by omega]
    refine Goes.seq (path_round hμ hp hm he h) ?_
    rintro v ⟨hpc, hpsr, h1, h2, hlr, hrest⟩
    have hmore : im.intData + BitVec.ofNat 32 (4 * (j + 1)) ≠ im.toSymbols.intInit := by
      unfold Symbols.intInit
      bv_omega
    rw [if_neg hmore] at hpc
    exact ih (by omega) ⟨hpc, hpsr, h1, h2, hlr, hrest⟩

/-- A call of `int_init` copies eleven words and returns. -/
theorem path_intInit (hpc : m.pc = im.toSymbols.intInit) :
    im.Path (Quiet im) (Copied μ m) (4 * 10 + (4 + 1) + 3) m := by
  have hc := im.intInitCode
  have h0 : m.pc = im.toSymbols.intInit + BitVec.ofNat 32 (4 * 0) := by rw [hpc]; simp
  have h1 := pc_step h0
  have h2 := pc_step h1
  refine path_quiet 0 hc rfl h0 hμ hp hm he (quiet_intInit 0 rfl) fun _ => ⟨_, rfl, ?_⟩
  refine path_quiet 1 hc rfl h1 hμ hp hm he (quiet_intInit 1 rfl) fun _ => ⟨_, rfl, ?_⟩
  refine path_quiet 2 hc rfl h2 hμ hp hm he (quiet_intInit 2 rfl) fun _ => ⟨_, rfl, ?_⟩
  refine path_loop hμ hp hm he 10 rfl ⟨pc_step h2, rfl, ?_, ?_, rfl, rfl, rfl⟩
  · simp [Machine.set, Machine.next]
  · simp [Machine.set, Machine.next]

end Image

/-! ## `lolevel_handler_rst` -/

/-- The `ldr` of `sp_svc`; `sp_irq` is loaded. -/
structure AtLoad (S : Symbols) (t : Machine) : Prop where
  pc : t.pc = S.lolevelHandlerRst + BitVec.ofNat 32 (4 * 4)
  mode : t.mode = some .svc
  masked : t.Masked
  spIrq : t.sp .irq = S.tosIrq
  executing : t.kernel.executing = none
  frames : t.frames = []

/-- The `add sp, sp, #68` that follows. -/
structure AtAdd (S : Symbols) (t : Machine) : Prop where
  pc : t.pc = S.lolevelHandlerRst + BitVec.ofNat 32 (4 * 5)
  mode : t.mode = some .svc
  masked : t.Masked
  spIrq : t.sp .irq = S.tosIrq
  spSvc : t.sp .svc = S.tosSvc
  executing : t.kernel.executing = none
  frames : t.frames = []

/-- The call of `hilevel_handler_rst`. -/
structure AtRstCall (S : Symbols) (t : Machine) : Prop where
  pc : t.pc = S.lolevelHandlerRst + BitVec.ofNat 32 (4 * 7)
  mode : t.mode = some .svc
  masked : t.Masked
  spIrq : t.sp .irq = S.tosIrq
  spSvc : t.sp .svc = S.tosSvc + 68
  r0 : t.gpr 0 = t.sp .svc
  executing : t.kernel.executing = none
  frames : t.frames = []

theorem ofPsr_fieldsFC (old : Word) (μ : Mode) (imm : Word) (h : imm &&& 0x1F = μ.bits) :
    Mode.ofPsr (psrWrite fieldsFC old imm) = some μ := by
  rw [Mode.ofPsr_congr (psrWrite_take (by decide) old imm)]
  unfold Mode.ofPsr
  rw [h]
  cases μ <;> decide

theorem Quiet.guarded {im : Image} {t : Machine} (h : Quiet im t) : Guarded t :=
  ⟨h.mode, h.masked, fun hs => by simp [h.executing] at hs⟩

theorem Quiet.isExec {im : Image} {t t' : Machine} {l : Label} (h : Quiet im t)
    (hs : im.step t l = some t') : l.IsExec := Image.isExec_of_masked h.mode h.masked hs

/-- The core executes the instruction at `a`. -/
def ExecutesAt (a : Word) (t : Machine) (l : Label) : Prop := l.IsExec ∧ t.pc = a

/-- The `add sp, sp, #68` of `lolevel_handler_rst`. -/
abbrev Symbols.addSp (S : Symbols) : Word := S.lolevelHandlerRst + BitVec.ofNat 32 (4 * 5)

/-- The `msr cpsr_c, r0` of `int_enable_irq`. -/
abbrev Symbols.unmask (S : Symbols) : Word := S.intEnableIrq + BitVec.ofNat 32 (4 * 2)

/-- A boundary before the `msr` of `int_enable_irq`. -/
structure BeforeUnmask (im : Image) (t : Machine) : Prop where
  guarded : Guarded t
  code : ∃ i, im.fetch t.pc = some i ∧ i ≠ .msrCpsrC (.r 0)

theorem BeforeUnmask.not_executesAt {im : Image} {t : Machine} {l : Label} (h : BeforeUnmask im t) :
    ¬ ExecutesAt im.unmask t l := by
  rintro ⟨-, hpc⟩
  obtain ⟨i, hi, hne⟩ := h.code
  exact hne (Option.some.inj (hi.symm.trans (im.intEnableIrqCode.fetch_eq rfl hpc)))

theorem Quiet.beforeUnmask {im : Image} {t : Machine} (h : Quiet im t) : BeforeUnmask im t := by
  obtain ⟨i, hi, hq⟩ := h.code
  obtain ⟨μ, -, hμ⟩ := h.mode
  refine ⟨h.guarded, i, hi, ?_⟩
  rintro rfl
  have hmem := (hq μ hμ).mem
  simp [Symbols.quietCode, intInitCode, lolevelHandlerRstCode] at hmem

theorem Quiet.not_executesAt {im : Image} {t : Machine} {l : Label} (h : Quiet im t) :
    ¬ ExecutesAt im.addSp t l := by
  rintro ⟨-, hpc⟩
  obtain ⟨i, hi, hq⟩ := h.code
  obtain ⟨μ, -, hμ⟩ := h.mode
  have hmem := (hq μ hμ).mem
  obtain rfl := Option.some.inj (hi.symm.trans (im.rstCode.fetch_eq rfl hpc))
  simp [Symbols.quietCode, intInitCode, lolevelHandlerRstCode] at hmem

namespace Image
variable {im : Image} {m : Machine}

/-- The reset path up to the load of `sp_svc`. -/
theorem path_load (h : m.Reset im.toSymbols) :
    im.Path (Quiet im) (AtLoad im.toSymbols) (48 + 3 + 1) m := by
  have hc := im.rstCode
  have hsvc := Mode.svc_ne_usr
  have hirq := Mode.irq_ne_usr
  have hm : m.Masked := and_of_and h.masked (by decide)
  have h0 : m.pc = im.lolevelHandlerRst + BitVec.ofNat 32 (4 * 0) := by rw [h.pc]; simp
  have h1 := pc_step h0
  have hq (k : ℕ) {i : Instr} {μ : Mode} (hk : ((lolevelHandlerRstCode im.toSymbols).take 5)[k]? =
      some i) (hload : ∀ a, i = .ldrLit .sp a → a = im.toLayout.tos μ) : i.Quiet im.toSymbols μ :=
    ⟨List.mem_append_right _ (List.mem_of_getElem? hk), hload⟩
  refine path_quiet 0 hc rfl h0 h.mode hsvc hm h.executing (hq 0 rfl (by simp))
    fun _ => ⟨_, rfl, ?_⟩
  refine Goes.seq (path_intInit h.mode hsvc hm h.executing rfl) ?_
  rintro t ⟨hpc, hpsr, het, hft⟩
  replace h1 : t.pc = im.lolevelHandlerRst + BitVec.ofNat 32 (4 * 1) := by
    rw [hpc]; simpa using h1
  have h2 := pc_step h1
  have h3 := pc_step h2
  have h4 := pc_step h3
  have he : t.kernel.executing = none := het.trans h.executing
  have hmode (old : Word) : Mode.ofPsr (psrWrite fieldsFC old 0xD2) = some .irq :=
    ofPsr_fieldsFC old .irq _ rfl
  have hmask (old : Word) : psrWrite fieldsFC old 0xD2 &&& bitI = bitI := psrWrite_take rfl _ _
  have hirqLoad : ∀ a, Instr.ldrLit .sp im.tosIrq = .ldrLit .sp a → a = im.toLayout.tos .irq :=
    fun _ ha => (Instr.ldrLit.inj ha).2.symm
  refine path_quiet 1 hc rfl h1 ((mode_of_psr hpsr).trans h.mode) hsvc ((masked_of_psr hpsr).2 hm) he
    (hq 1 rfl (by simp)) fun _ => ⟨_, rfl, ?_⟩
  refine path_quiet 2 hc rfl h2 (hmode _) hirq (hmask _) he (hq 2 rfl hirqLoad)
    fun _ => ⟨_, rfl, ?_⟩
  refine path_quiet 3 hc rfl h3 (hmode _) hirq (hmask _) he (hq 3 rfl (by simp))
    fun _ => ⟨_, rfl, ?_⟩
  refine ⟨h4, ofPsr_fieldsFC _ .svc _ rfl, psrWrite_take rfl _ _, ?_, he, hft.trans h.frames⟩
  simp [Machine.set, Machine.next]

/-- The load of `sp_svc`. -/
theorem path_loaded (h : AtLoad im.toSymbols m) :
    im.Path (Quiet im) (AtAdd im.toSymbols) 1 m := by
  have hmem : Instr.ldrLit .sp im.tosSvc ∈ im.toSymbols.quietCode :=
    List.mem_append_right _ (List.mem_of_getElem? (i := 4) rfl)
  have hq : (Instr.ldrLit .sp im.tosSvc).Quiet im.toSymbols .svc :=
    ⟨hmem, fun _ ha => (Instr.ldrLit.inj ha).2.symm⟩
  refine path_quiet 4 im.rstCode rfl h.pc h.mode Mode.svc_ne_usr h.masked h.executing hq
    fun _ => ⟨_, rfl, ?_⟩
  refine ⟨pc_step h.pc, h.mode, h.masked, ?_, ?_, h.executing, h.frames⟩
  · simp [Machine.set, Machine.next, h.spIrq]
  · simp [Machine.set, Machine.next]

/-- **The reset path up to the `add`.** -/
theorem path_add (h : m.Reset im.toSymbols) :
    im.Path (Quiet im) (AtAdd im.toSymbols) (48 + 3 + 1 + 1) m :=
  Goes.seq (path_load h) fun _ ht => path_loaded ht

/-- The `add` and the passing of its result. -/
theorem path_rstCall (h : AtAdd im.toSymbols m) :
    im.Path (BeforeUnmask im) (AtRstCall im.toSymbols) (1 + 1) m := by
  have hc := im.rstCode
  have hp := Mode.svc_ne_usr
  have h6 := pc_step h.pc
  have hst : StoredOk m.kernel := fun hs => by simp [h.executing] at hs
  have hg : ∀ t : Machine, t.cpsr = m.cpsr → t.kernel = m.kernel → Guarded t := fun t ht hk =>
    Guarded.of_psr h.mode hp h.masked (by rw [ht]) (by rw [hk]; exact hst)
  refine Path.instr 5 hc rfl h.pc h.mode hp ⟨hg _ rfl rfl, _, hc.fetch_eq rfl h.pc, by simp⟩
    fun _ => ⟨_, rfl, ?_⟩
  refine Path.instr 6 hc rfl h6 h.mode hp ⟨hg _ rfl rfl, _, hc.fetch_eq rfl h6, by simp⟩
    fun _ => ⟨_, rfl, ?_⟩
  refine ⟨pc_step h6, h.mode, h.masked, ?_, ?_, ?_, h.executing, h.frames⟩
  · simp [Machine.set, Machine.next, Machine.get, h.spIrq]
  · simp [Machine.set, Machine.next, Machine.get, h.spSvc]
  · simp [Machine.set, Machine.next, Machine.get]

end Image

/-! ## `hilevel_handler_rst` -/

/-- What `hilevel_handler_rst` has set up when it calls `int_enable_irq`. -/
structure Started (S : Symbols) (t : Machine) : Prop where
  spIrq : t.sp .irq = S.tosIrq
  spSvc : t.sp .svc = S.tosSvc + 68
  frames : ∃ f : Frame, t.frames = [f] ∧ f.ret = S.lolevelHandlerRst + BitVec.ofNat 32 (4 * 8)
  executing : t.kernel.executing = some 0
  zero : t.kernel.procTab 0 = newPcb 1 S.tosP1 S.mainP1
  one : t.kernel.procTab 1 = newPcb 2 S.tosP2 S.mainP2
  block : Ctx.ofMem t.mem (S.tosSvc + 68) = (newPcb 1 S.tosP1 S.mainP1).ctx

theorem userPsr_newPcb (pid : ℤ) (tos main : Word) : UserPsr (newPcb pid tos main).ctx.cpsr := by
  show (0x50 : Word) &&& 0x9F = 0x10
  decide

theorem Started.stored {S : Symbols} {t : Machine} (h : Started S t) (q : Fin maxProcs) :
    UserPsr (t.kernel.procTab q).ctx.cpsr := by
  obtain rfl | rfl := proc_cases q
  · rw [h.zero]; exact userPsr_newPcb _ _ _
  · rw [h.one]; exact userPsr_newPcb _ _ _

/-- The `msr cpsr_c, r0` of `int_enable_irq`. -/
structure AtUnmask (S : Symbols) (t : Machine) : Prop where
  pc : t.pc = S.intEnableIrq + BitVec.ofNat 32 (4 * 2)
  mode : t.mode = some .svc
  masked : t.Masked
  r0 : t.gpr 0 = t.cpsr &&& ~~~bitI
  lr : t.lr .svc = S.hilevelHandlerRst + BitVec.ofNat 32 (4 * 3)
  started : Started S t

/-- The boundary after it. -/
structure AtUnmasked (S : Symbols) (t : Machine) : Prop where
  pc : t.pc = S.intEnableIrq + BitVec.ofNat 32 (4 * 3)
  mode : t.mode = some .svc
  unmasked : ¬ t.Masked
  lr : t.lr .svc = S.hilevelHandlerRst + BitVec.ofNat 32 (4 * 3)
  started : Started S t

namespace Image
variable {im : Image} {m : Machine}

theorem path_hilevelHandlerRst (hpc : m.pc = im.hilevelHandlerRst) (hμ : m.mode = some .svc)
    (hm : m.Masked) (hirq : m.sp .irq = im.tosIrq) (hsvc : m.sp .svc = im.tosSvc + 68)
    (hr0 : m.gpr 0 = m.sp .svc) (hlr : m.lr .svc = im.lolevelHandlerRst + BitVec.ofNat 32 (4 * 8))
    (he : m.kernel.executing = none) (hfr : m.frames = []) :
    im.Path (BeforeUnmask im) (AtUnmask im.toSymbols) 5 m := by
  have hc := im.hRstCode
  have hc' := im.intEnableIrqCode
  have hp := Mode.svc_ne_usr
  have hP : ∀ t : Machine, t.cpsr &&& ~~~flagBits = m.cpsr &&& ~~~flagBits → StoredOk t.kernel →
      (∃ i, im.fetch t.pc = some i ∧ i ≠ .msrCpsrC (.r 0)) → BeforeUnmask im t :=
    fun t ht hst hi => ⟨Guarded.of_psr hμ hp hm ht hst, hi⟩
  have hst : StoredOk m.kernel := fun hs => by simp [he] at hs
  have h0 : m.pc = im.hilevelHandlerRst + BitVec.ofNat 32 (4 * 0) := by rw [hpc]; simp
  have h1 := pc_step h0
  have h2 := pc_step h1
  have h3 := pc_step h2
  -- the entry
  refine Path.stmt 0 hc rfl h0 hμ hp (hP _ rfl hst ⟨_, hc.fetch_eq rfl h0, by simp⟩) rfl ?_
  rintro m₁ hk₁ ⟨hpc₁, hfr₁, x₁, hm₁⟩
  simp only [Machine.mem] at hpc₁ hfr₁ hm₁
  -- the body
  set f : Frame := ⟨m.lr .svc, m.gpr 0, 0⟩ with hf
  have hs₁ : CStmt.rst.exec im.toLayout .svc m₁ =
      some { m₁ with kernel := hilevelHandlerRst im.toLayout f.ctx m₁.kernel, pc := m₁.pc + 4 } := by
    rw [CStmt.exec, hfr₁, List.head?_cons, Option.map_some]
  refine Path.stmt 1 hc rfl (hpc₁.trans h1) ((mode_of_psr hk₁.psr).trans hμ) hp
    (hP _ hk₁.psr (by rw [hm₁]; exact hst) ⟨_, hc.fetch_eq rfl (hpc₁.trans h1), by simp⟩) hs₁ ?_
  rintro m₂ hk₂ ⟨hpc₂, hfr₂, x₂, hm₂⟩
  replace hk₂ := hk₁.trans hk₂
  simp only [Machine.mem, hpc₁, hk₁.sp] at hpc₂ hfr₂ hm₂
  have hb := hilevelHandlerRst_spec im.toLayout f.ctx m₁.kernel
  have hstart : Started im.toSymbols m₂ := by
    have hfit : (im.tosSvc + 68).toNat + 68 ≤ 2 ^ 32 := by
      have := im.toNat_tosSvc; have := im.fits; bv_omega
    refine ⟨by rw [hk₂.sp, hirq], by rw [hk₂.sp, hsvc], ⟨f, by rw [hfr₂, hfr₁, hfr], hlr⟩,
      by rw [hm₂]; exact hb.executing, by rw [hm₂]; exact hb.zero, by rw [hm₂]; exact hb.one, ?_⟩
    rw [Machine.mem, hm₂, hsvc]
    simp only
    rw [ofMem_below hfit, hb.mem, hf, hr0, hsvc, Ctx.ofMem_toMem]
  have hst₂ : StoredOk m₂.kernel := fun _ => hstart.stored
  have hμ₂ : m₂.mode = some .svc := (mode_of_psr hk₂.psr).trans hμ
  -- `int_enable_irq` as far as its `msr`
  refine Path.instr 2 hc rfl (hpc₂.trans h2) hμ₂ hp
    (hP _ hk₂.psr hst₂ ⟨_, hc.fetch_eq rfl (hpc₂.trans h2), by simp⟩) fun _ => ⟨_, rfl, ?_⟩
  have g0 : im.intEnableIrq = im.intEnableIrq + BitVec.ofNat 32 (4 * 0) := by simp
  have g1 := pc_step g0
  have g2 := pc_step g1
  refine Path.instr 0 hc' rfl g0 hμ₂ hp
    (hP _ hk₂.psr hst₂ ⟨_, hc'.fetch_eq rfl g0, by simp⟩) fun _ => ⟨_, rfl, ?_⟩
  refine Path.instr 1 hc' rfl g1 hμ₂ hp
    (hP _ hk₂.psr hst₂ ⟨_, hc'.fetch_eq rfl g1, by simp⟩) fun _ => ⟨_, rfl, ?_⟩
  refine ⟨g2, hμ₂, (masked_of_psr hk₂.psr).2 hm, ?_, ?_, hstart.spIrq, hstart.spSvc, hstart.frames,
    hstart.executing, hstart.zero, hstart.one, hstart.block⟩
  · simp [Machine.set, Machine.next, Machine.get, bitI]
  · rw [hpc₂]
    simpa [Machine.set, Machine.next, Machine.get] using h3

theorem path_unmask (h : AtRstCall im.toSymbols m) :
    im.Path (BeforeUnmask im) (AtUnmask im.toSymbols) (5 + 1) m := by
  have hp := Mode.svc_ne_usr
  have hst : StoredOk m.kernel := fun hs => by simp [h.executing] at hs
  refine Path.instr 7 im.rstCode rfl h.pc h.mode hp
    ⟨Guarded.of_psr h.mode hp h.masked rfl hst, _, im.rstCode.fetch_eq rfl h.pc, by simp⟩
    fun _ => ⟨_, rfl, ?_⟩
  have h8 := pc_step h.pc
  exact path_hilevelHandlerRst rfl h.mode h.masked h.spIrq h.spSvc h.r0
    ((Function.update_self Mode.svc _ m.lr).trans h8) h.executing h.frames

end Image

/-! ## To the first instruction of `P1` -/

/-- The boundary at which `P1` starts. -/
structure EntersP1 (S : Symbols) (v : Machine) : Prop where
  user : ∃ psr, v.userCtx = resume psr (newPcb 1 S.tosP1 S.mainP1).ctx
  spIrq : v.sp .irq = S.tosIrq
  spSvc : v.sp .svc = S.tosSvc + 136
  executing : v.kernel.executing = some 0
  zero : v.kernel.procTab 0 = newPcb 1 S.tosP1 S.mainP1
  one : v.kernel.procTab 1 = newPcb 2 S.tosP2 S.mainP2
  frames : v.frames = []

theorem EntersP1.atUser {S : Symbols} {v : Machine} (h : EntersP1 S v) : AtUser S.toLayout v := by
  obtain ⟨psr, hu⟩ := h.user
  have hpsr : UserPsr v.userCtx.cpsr := by rw [hu]; exact userPsr_resume (userPsr_newPcb _ _ _)
  refine ⟨hpsr, h.spIrq, h.spSvc, ⟨0, h.executing⟩, fun q q' hq => ?_, fun q => ?_⟩
  · obtain rfl | rfl := proc_cases q <;> obtain rfl | rfl := proc_cases q' <;>
      simp only [h.zero, h.one, newPcb] at hq ⊢ <;> cases hq
  · obtain rfl | rfl := proc_cases q
    · rw [h.zero]; exact userPsr_newPcb _ _ _
    · rw [h.one]; exact userPsr_newPcb _ _ _

/-- The last instruction of the reset path. -/
structure AtReturn (im : Image) (t : Machine) : Prop where
  busy : Busy im.toSymbols t
  mode : t.mode = some .svc
  next : ∃ v, EntersP1 im.toSymbols v ∧ ∀ x, im.step t (.exec x) = some v

namespace Image
variable {im : Image} {m : Machine}

/-- The `msr` clears the I bit and leaves the mode alone. -/
theorem path_unmasked (h : AtUnmask im.toSymbols m) :
    im.Path Guarded (AtUnmasked im.toSymbols) 1 m := by
  have hp := Mode.svc_ne_usr
  have hmode : Mode.ofPsr (psrWrite fieldC m.cpsr (m.gpr 0)) = some .svc := by
    have hk : ~~~bitI &&& 0x1F = (0x1F : Word) := by decide
    rw [Mode.ofPsr_congr (psrWrite_take (by decide) m.cpsr (m.gpr 0)), ← h.mode]
    refine Mode.ofPsr_congr ?_
    rw [h.r0, BitVec.and_assoc, hk]
  have hunm : psrWrite fieldC m.cpsr (m.gpr 0) &&& bitI ≠ bitI := by
    have hk : ~~~bitI &&& bitI = 0#32 := by decide
    rw [psrWrite_take (by decide), h.r0, BitVec.and_assoc, hk, BitVec.and_zero]
    decide
  refine Path.instr 2 im.intEnableIrqCode rfl h.pc h.mode hp
    ⟨⟨.svc, hp, h.mode⟩, h.masked, fun _ => h.started.stored⟩ fun _ => ⟨_, rfl, ?_⟩
  exact ⟨pc_step h.pc, hmode, hunm, h.lr, h.started.spIrq, h.started.spSvc, h.started.frames,
    h.started.executing, h.started.zero, h.started.one, h.started.block⟩

/-- The rest of the reset path runs in SVC mode with IRQs enabled. -/
theorem path_return (h : AtUnmasked im.toSymbols m) :
    im.Path (Busy im.toSymbols) (AtReturn im) (4 + 1 + 1) m := by
  have hp := Mode.svc_ne_usr
  have hS := h.started
  have hP : ∀ t : Machine, t.mode = some .svc → StoredOk t.kernel → t.pc ∈ im.toSymbols.window →
      Busy im.toSymbols t := fun t hμ hst hw => ⟨⟨.svc, hp, hμ⟩, Or.inr hw, hst⟩
  have hst : StoredOk m.kernel := fun _ => hS.stored
  -- the returns from `int_enable_irq` and from `hilevel_handler_rst`
  refine Path.instr 3 im.intEnableIrqCode rfl h.pc h.mode hp
    (hP _ h.mode hst (by rw [h.pc]; exact List.mem_cons_self)) fun _ => ⟨_, rfl, ?_⟩
  obtain ⟨f, hf, hret⟩ := hS.frames
  have hs : CStmt.leave.exec im.toLayout .svc { m with pc := m.lr .svc } =
      some { m with frames := [], pc := f.ret } := by
    rw [CStmt.exec, hf]
  have hw : im.hilevelHandlerRst + BitVec.ofNat 32 (4 * 3) ∈ im.toSymbols.window :=
    List.mem_cons_of_mem _ List.mem_cons_self
  refine Path.stmt 3 im.hRstCode rfl h.lr h.mode hp
    (hP _ h.mode hst (by rw [h.lr]; exact hw)) hs ?_
  rintro u hk ⟨hpc, hfr, x, hku⟩
  -- the rest of `lolevel_handler_rst`
  simp only [Machine.mem] at hpc hfr hku
  have hsp : u.sp .svc = im.tosSvc + 68 := by rw [hk.sp]; exact hS.spSvc
  have hμu : u.mode = some .svc := (mode_of_psr hk.psr).trans h.mode
  have hstu : StoredOk u.kernel := by rw [hku]; exact hst
  refine Goes.mono_right (path_restoring 8 im.rstCode rfl (hpc.trans hret) hμu hp ?_) ?_
  · rintro v hv hkv ⟨j, hj, hpcv⟩
    refine hP v ?_ (by rw [hkv]; exact hstu) ?_
    · rw [Machine.mode, hv]; exact hμu
    · rw [hpcv]
      exact List.mem_cons_of_mem _ (List.mem_cons_of_mem _
        (List.mem_map.2 ⟨j, List.mem_range.2 hj, rfl⟩))
  · rintro t ⟨hbusy, hμt, hnext⟩
    refine ⟨hbusy, hμt, u.restored .svc, ?_, hnext⟩
    have hblock : Ctx.ofMem u.mem (im.tosSvc + 68) = (newPcb 1 im.tosP1 im.mainP1).ctx := by
      have hfit : (im.tosSvc + 68).toNat + 68 ≤ 2 ^ 32 := by
        have := im.toNat_tosSvc; have := im.fits; bv_omega
      rw [Machine.mem, hku, hS.spSvc]
      simp only
      rw [ofMem_below hfit]; exact hS.block
    refine ⟨⟨u.spsr .svc, ?_⟩, ?_, ?_, ?_, ?_, ?_, hfr⟩
    · rw [restored_userCtx, hsp, hblock]
    · rw [restored_sp_of_ne (by decide) (by decide), hk.sp]; exact hS.spIrq
    · rw [restored_sp hp, hsp]; bv_omega
    · show u.kernel.executing = _
      rw [hku]; exact hS.executing
    · show u.kernel.procTab 0 = _
      rw [hku]; exact hS.zero
    · show u.kernel.procTab 1 = _
      rw [hku]; exact hS.one

/-- The reset path up to the `msr` of `int_enable_irq`. -/
theorem path_masked (h : m.Reset im.toSymbols) :
    im.Path (BeforeUnmask im) (AtUnmask im.toSymbols) (48 + 3 + 1 + 1 + (1 + 1 + (5 + 1))) m := by
  refine Goes.seq ((path_add h).mono_left fun _ ht => ht.beforeUnmask) fun t ht => ?_
  exact Goes.seq (path_rstCall ht) fun u hu => path_unmask hu

/-- **The reset path.** -/
theorem path_reset (h : m.Reset im.toSymbols) :
    im.Path (Busy im.toSymbols) (AtReturn im)
      (48 + 3 + 1 + 1 + (1 + 1 + (5 + 1)) + (1 + (4 + 1 + 1))) m := by
  refine Goes.seq ((path_masked h).mono_left fun _ ht => ht.guarded.busy) fun t ht => ?_
  refine Goes.seq ((path_unmasked ht).mono_left fun _ hu => hu.busy) fun u hu => ?_
  exact path_return hu

end Image

end CcKernel
