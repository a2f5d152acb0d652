/-
  What the paths through the kernel share: the end of a handler that restores a
  context, the statements of C code, and what is true of the boundaries inside
  handlers and between them.
-/
import Mathlib.Data.List.GetD
import CcKernel.Kernel.Lolevel

namespace CcKernel

open WordMem Lts

/-- The context of the process in USR mode. -/
def Machine.userCtx (m : Machine) : Ctx := ⟨m.cpsr, m.pc, m.gpr, m.sp .usr, m.lr .usr⟩

/-- USR mode, IRQs enabled. -/
def UserPsr (psr : Word) : Prop := psr &&& 0x9F = 0x10

theorem UserPsr.mode {m : Machine} (h : UserPsr m.cpsr) : m.mode = some .usr := by
  have h5 : m.cpsr &&& 0x1F = 0x10 := and_of_and h (by decide)
  unfold Machine.mode Mode.ofPsr
  rw [if_pos h5]

theorem UserPsr.unmasked {m : Machine} (h : UserPsr m.cpsr) : ¬ m.Masked := by
  have h7 : m.cpsr &&& bitI = 0 := and_of_and h (by decide)
  unfold Machine.Masked
  rw [h7]
  decide

theorem pc_step {pc b : Word} {k : ℕ} (h : pc = b + BitVec.ofNat 32 (4 * k)) :
    pc + 4 = b + BitVec.ofNat 32 (4 * (k + 1)) := by
  rw [h, BitVec.add_assoc, Nat.mul_succ, BitVec.ofNat_add]; rfl

/-! ## Restoring a context -/

/-- The five instructions that end the reset and the IRQ handler. -/
def restoreCode : List Instr :=
  [.ldmia .sp [.r 0, .lr], .msrSpsr (.r 0), .ldmiaUsr .sp, .add .sp .sp 60, .movsPcLr]

/-- What `restoreCode` makes of the context block at the stack pointer. -/
def Machine.restored (m : Machine) (μ : Mode) : Machine :=
  let c := Ctx.ofMem m.mem (m.sp μ)
  { m with
    gpr := c.gpr
    sp := Function.update (Function.update m.sp μ (m.sp μ + 68)) .usr c.sp
    lr := Function.update (Function.update m.lr μ c.pc) .usr c.lr
    spsr := Function.update m.spsr μ (psrWrite fieldsFC (m.spsr μ) c.cpsr)
    cpsr := psrWrite fieldsFC (m.spsr μ) c.cpsr
    pc := c.pc }

/-- The status register a process gets back: `msr spsr` writes the flags and
    the control field only. -/
def resume (psr : Word) (c : Ctx) : Ctx := { c with cpsr := psrWrite fieldsFC psr c.cpsr }

theorem ofMem_eq (m : Mem) (a : Word) :
    Ctx.ofMem m a = { cpsr := (load m a 2).getD 0 0, pc := (load m a 2).getD 1 0,
                      gpr := fun i => (load m (a + 8) 15).getD i 0,
                      sp := (load m (a + 8) 15).getD 13 0,
                      lr := (load m (a + 8) 15).getD 14 0 } := by
  have h : load m a 17 = load m a 2 ++ load m (a + 8) 15 := load_append m a 2 15
  have hlen : (load m a 2).length = 2 := by simp [load, addrs_length]
  have hlo : ∀ i < 2, (load m a 17).getD i 0 = (load m a 2).getD i 0 := by
    intro i hi
    rw [h, List.getD_append _ _ _ _ (by omega)]
  have hhi : ∀ i, (load m a 17).getD (2 + i) 0 = (load m (a + 8) 15).getD i 0 := by
    intro i
    rw [h, List.getD_append_right _ _ _ _ (by omega), hlen, Nat.add_sub_cancel_left]
  unfold Ctx.ofMem Ctx.size Ctx.ofWords
  rw [hlo 0 (by decide), hlo 1 (by decide), show 15 = 2 + 13 from rfl, show 16 = 2 + 14 from rfl,
    hhi, hhi]
  simp only [hhi]

theorem ofMem_below {m m' : Mem} {a : Word} (ha : a.toNat + 68 ≤ 2 ^ 32) :
    Ctx.ofMem (below m a m') a = Ctx.ofMem m a := by
  unfold Ctx.ofMem
  rw [load_below (BitVec.le_refl _) (by unfold Ctx.size; omega)]

theorem restored_sp {μ : Mode} (hp : μ ≠ .usr) (m : Machine) :
    (m.restored μ).sp μ = m.sp μ + 68 := by
  simp [Machine.restored, hp]

theorem restored_sp_of_ne {μ ν : Mode} (hμ : ν ≠ μ) (hν : ν ≠ .usr) (m : Machine) :
    (m.restored μ).sp ν = m.sp ν := by
  simp [Machine.restored, hμ, hν]

theorem restored_userCtx (μ : Mode) (m : Machine) :
    (m.restored μ).userCtx = resume (m.spsr μ) (Ctx.ofMem m.mem (m.sp μ)) := by
  simp [Machine.userCtx, Machine.restored, resume]

namespace Image
variable {im : Image} {m : Machine} {P : Machine → Prop}

/-- The first four of them lead to a `movs pc, lr` that takes the core to the
    process. -/
theorem path_restoring {base : Word} {is : List Instr} {μ : Mode} (k : ℕ)
    (hc : CodeAt im.fetch base is) (hdrop : is.drop k = restoreCode)
    (hpc : m.pc = base + BitVec.ofNat 32 (4 * k)) (hμ : m.mode = some μ) (hp : μ ≠ .usr)
    (hP : ∀ t : Machine, t.cpsr = m.cpsr → t.kernel = m.kernel →
      (∃ j < 5, t.pc = base + BitVec.ofNat 32 (4 * (k + j))) → P t) :
    im.Path P (fun t => P t ∧ t.mode = some μ ∧ ∀ x, im.step t (.exec x) = some (m.restored μ)) 4 m := by
  have hi : ∀ j i, restoreCode[j]? = some i → is[k + j]? = some i := by
    intro j i hj
    rwa [← hdrop, List.getElem?_drop] at hj
  have h1 := pc_step hpc
  have h2 := pc_step h1
  have h3 := pc_step h2
  have h4 := pc_step h3
  refine Path.instr k hc (hi 0 _ rfl) hpc hμ hp (hP _ rfl rfl ⟨0, by decide, hpc⟩)
    fun _ => ⟨_, rfl, ?_⟩
  refine Path.instr (k + 1) hc (hi 1 _ rfl) h1 hμ hp (hP _ rfl rfl ⟨1, by decide, h1⟩)
    fun _ => ⟨_, rfl, ?_⟩
  refine Path.instr (k + 2) hc (hi 2 _ rfl) h2 hμ hp (hP _ rfl rfl ⟨2, by decide, h2⟩)
    fun _ => ⟨_, rfl, ?_⟩
  refine Path.instr (k + 3) hc (hi 3 _ rfl) h3 hμ hp (hP _ rfl rfl ⟨3, by decide, h3⟩)
    fun _ => ⟨_, rfl, ?_⟩
  refine ⟨hP _ rfl rfl ⟨4, by decide, h4⟩, hμ, fun x => ?_⟩
  refine (step_exec ?_ hp ((congrArg im.fetch h4).trans (hc (k + 4) _ (hi 4 _ rfl))) x).trans ?_
  · exact hμ
  rw [Instr.exec]
  have hupd : ∀ (f : Mode → Word) (a b c : Word),
      Function.update (Function.update (Function.update f μ a) .usr b) μ c =
        Function.update (Function.update f μ c) .usr b := fun f a b c => by
    rw [Function.update_comm hp, Function.update_idem, Function.update_comm hp.symm]
  unfold Machine.restored
  rw [ofMem_eq]
  simp [Machine.set, Machine.setAll, Machine.next, Machine.get, Machine.mem, load, addrs, hupd, hp,
    BitVec.add_assoc]

theorem path_restore {base : Word} {is : List Instr} {μ : Mode} (k : ℕ)
    (hc : CodeAt im.fetch base is) (hdrop : is.drop k = restoreCode)
    (hpc : m.pc = base + BitVec.ofNat 32 (4 * k)) (hμ : m.mode = some μ) (hp : μ ≠ .usr)
    (hP : ∀ t : Machine, t.cpsr = m.cpsr → t.kernel = m.kernel →
      (∃ j < 5, t.pc = base + BitVec.ofNat 32 (4 * (k + j))) → P t) :
    im.Path P (· = m.restored μ) (4 + 1) m := by
  refine Goes.seq (path_restoring k hc hdrop hpc hμ hp hP) ?_
  rintro t ⟨hPt, -, hstep⟩
  refine ⟨hPt, fun l hl => ?_⟩
  cases l with
  | exec x => exact ⟨_, hstep x, rfl⟩
  | _ => exact hl.elim

end Image

/-! ## C code -/

/-- What C code in mode `μ` keeps for its caller. -/
structure CKeeps (μ : Mode) (m m' : Machine) : Prop where
  sp : m'.sp = m.sp
  lr : ∀ ν ≠ μ, m'.lr ν = m.lr ν
  spsr : m'.spsr = m.spsr
  psr : m'.cpsr &&& ~~~flagBits = m.cpsr &&& ~~~flagBits
  gpr : ∀ i : Fin 13, ¬ (i < 4 ∨ i = 12) → m'.gpr i = m.gpr i

theorem CKeeps.trans {μ : Mode} {m m' m'' : Machine} (h : CKeeps μ m m') (h' : CKeeps μ m' m'') :
    CKeeps μ m m'' where
  sp := h'.sp.trans h.sp
  lr ν hν := (h'.lr ν hν).trans (h.lr ν hν)
  spsr := h'.spsr.trans h.spsr
  psr := h'.psr.trans h.psr
  gpr i hi := (h'.gpr i hi).trans (h.gpr i hi)

theorem CKeeps.clobber {μ : Mode} {m m' : Machine} (h : CKeeps μ m m') (x : Scratch) :
    CKeeps μ m (m'.clobber μ x) := by
  refine h.trans ⟨rfl, fun ν hν => ?_, rfl, psrWrite_keep (by decide) _ _, fun i hi => ?_⟩
  · exact Function.update_of_ne hν _ _
  · exact if_neg hi

theorem mode_of_psr {m m' : Machine} (h : m'.cpsr &&& ~~~flagBits = m.cpsr &&& ~~~flagBits) :
    m'.mode = m.mode := by
  refine Mode.ofPsr_congr ?_
  have hk : ~~~flagBits &&& 0x1F = 0x1F := by decide
  rw [and_of_and h hk, BitVec.and_assoc, hk]

theorem masked_of_psr {m m' : Machine} (h : m'.cpsr &&& ~~~flagBits = m.cpsr &&& ~~~flagBits) :
    m'.Masked ↔ m.Masked := by
  have hk : ~~~flagBits &&& bitI = bitI := by decide
  unfold Machine.Masked
  rw [and_of_and h hk, BitVec.and_assoc, hk]

namespace Image
variable {im : Image} {m : Machine} {P : Machine → Prop}

/-- A statement of C code changes nothing its caller relies on. -/
theorem exec_keeps {s : CStmt} {L : Layout} {μ : Mode} {m' : Machine} (h : s.exec L μ m = some m') :
    CKeeps μ m m' := by
  cases s <;> simp only [CStmt.exec, Option.map_eq_some_iff, Option.bind_eq_some_iff] at h
  case enter => cases h; exact ⟨rfl, fun _ _ => rfl, rfl, rfl, fun _ _ => rfl⟩
  case rst => obtain ⟨f, -, rfl⟩ := h; exact ⟨rfl, fun _ _ => rfl, rfl, rfl, fun _ _ => rfl⟩
  case iar => split at h <;> cases h; exact ⟨rfl, fun _ _ => rfl, rfl, rfl, fun _ _ => rfl⟩
  case timer =>
    obtain ⟨f, -, k, -, rfl⟩ := h; exact ⟨rfl, fun _ _ => rfl, rfl, rfl, fun _ _ => rfl⟩
  case eoir => obtain ⟨f, -, rfl⟩ := h; exact ⟨rfl, fun _ _ => rfl, rfl, rfl, fun _ _ => rfl⟩
  case leave => split at h <;> cases h; exact ⟨rfl, fun _ _ => rfl, rfl, rfl, fun _ _ => rfl⟩

/-- `m'` is `m₁` up to what compiled C code may do besides its statement. -/
structure UpToScratch (μ : Mode) (m₁ m' : Machine) : Prop where
  pc : m'.pc = m₁.pc
  frames : m'.frames = m₁.frames
  kernel : ∃ x : Mem, m'.kernel = { m₁.kernel with mem := below m₁.mem (m₁.sp μ) x }

/-- One statement of C code on a path. -/
theorem Path.stmt {Q : Machine → Prop} {n : ℕ} {base : Word} {is : List Instr} {s : CStmt}
    {μ : Mode} {m₁ : Machine} (k : ℕ) (hc : CodeAt im.fetch base is) (hi : is[k]? = some (.c s))
    (hpc : m.pc = base + BitVec.ofNat 32 (4 * k)) (hμ : m.mode = some μ) (hp : μ ≠ .usr) (hP : P m)
    (hs : s.exec im.toLayout μ m = some m₁)
    (hnext : ∀ m', CKeeps μ m m' → UpToScratch μ m₁ m' → im.Path P Q n m') :
    im.Path P Q (n + 1) m := by
  refine Path.instr k hc hi hpc hμ hp hP fun x => ⟨m₁.clobber μ x, by rw [Instr.exec, hs]; rfl, ?_⟩
  exact hnext _ ((exec_keeps hs).clobber x) ⟨rfl, rfl, x.mem, rfl⟩

end Image

/-! ## Between handlers -/

/-- The contexts in the process table are those of processes. -/
def StoredOk (k : Kernel) : Prop :=
  k.executing.isSome → ∀ p, UserPsr (k.procTab p).ctx.cpsr

/-- The boundaries of the reset path after `int_enable_irq` has cleared the I
    bit: the return from `int_enable_irq`, the return from
    `hilevel_handler_rst`, and the last five instructions of
    `lolevel_handler_rst`. -/
def Symbols.window (S : Symbols) : List Word :=
  (S.intEnableIrq + BitVec.ofNat 32 (4 * 3)) :: (S.hilevelHandlerRst + BitVec.ofNat 32 (4 * 3)) ::
    (List.range 5).map fun j => S.lolevelHandlerRst + BitVec.ofNat 32 (4 * (8 + j))

/-- A boundary inside a handler, IRQs masked. -/
structure Guarded (m : Machine) : Prop where
  mode : ∃ μ, μ ≠ .usr ∧ m.mode = some μ
  masked : m.Masked
  stored : StoredOk m.kernel

/-- A boundary inside a handler. -/
structure Busy (S : Symbols) (m : Machine) : Prop where
  mode : ∃ μ, μ ≠ .usr ∧ m.mode = some μ
  masked : m.Masked ∨ m.pc ∈ S.window
  stored : StoredOk m.kernel

theorem Guarded.busy {S : Symbols} {m : Machine} (h : Guarded m) : Busy S m :=
  ⟨h.mode, Or.inl h.masked, h.stored⟩

/-- A boundary at which a process runs. -/
structure AtUser (L : Layout) (m : Machine) : Prop where
  psr : UserPsr m.cpsr
  spIrq : m.sp .irq = L.tosIrq
  spSvc : m.sp .svc = L.tosSvc + 136
  executing : ∃ p, m.kernel.executing = some p
  pids : Function.Injective fun q => (m.kernel.procTab q).pid
  stored : ∀ q, UserPsr (m.kernel.procTab q).ctx.cpsr

theorem Guarded.of_psr {μ : Mode} {m t : Machine} (hμ : m.mode = some μ) (hp : μ ≠ .usr)
    (hm : m.Masked) (h : t.cpsr &&& ~~~flagBits = m.cpsr &&& ~~~flagBits) (hst : StoredOk t.kernel) :
    Guarded t :=
  ⟨⟨μ, hp, (mode_of_psr h).trans hμ⟩, (masked_of_psr h).2 hm, hst⟩

theorem userPsr_resume {psr : Word} {c : Ctx} (h : UserPsr c.cpsr) : UserPsr (resume psr c).cpsr :=
  (psrWrite_take (by decide) _ _).trans h

theorem resume_self (m : Machine) : resume m.cpsr m.userCtx = m.userCtx := by
  have : psrWrite fieldsFC m.cpsr m.cpsr = m.cpsr := by
    unfold psrWrite
    ext i hi
    simp only [BitVec.getElem_or, BitVec.getElem_and, BitVec.getElem_not]
    cases m.cpsr[i] <;> cases fieldsFC[i] <;> rfl
  unfold resume
  rw [Machine.userCtx, this]

end CcKernel
