/-
  The assembly half of the kernel (`kernel/lolevel.s`, `kernel/int.s`) and the
  machine it runs on.

  A kernel image has the code of every function at its symbol.  The machine
  takes labelled steps: in USR mode a process does as it likes with its
  registers and flags, or takes an SVC exception; in a privileged mode the core
  executes the instruction at `pc`; an IRQ exception is taken at any boundary
  where the CPSR does not mask it.
-/
import CcKernel.Lib.Run
import CcKernel.Kernel.Arm

namespace CcKernel

open WordMem Lts

/-! ## Code -/

/-- The addresses of the functions, besides those of the layout. -/
structure Symbols extends Layout where
  lolevelHandlerRst : Word
  lolevelHandlerIrq : Word
  lolevelHandlerSvc : Word
  intData : Word
  intEnableIrq : Word
  hilevelHandlerRst : Word
  hilevelHandlerIrq : Word
  hilevelHandlerSvc : Word

/-- `int_init` follows the eight instructions and three words of `int_data`. -/
def Symbols.intInit (S : Symbols) : Word := S.intData + 44

section
variable (S : Symbols)

def lolevelHandlerRstCode : List Instr :=
  [.bl S.intInit,
   .msrCpsrImm 0xD2,
   .ldrLit .sp S.tosIrq,
   .msrCpsrImm 0xD3,
   .ldrLit .sp S.tosSvc,
   .add .sp .sp 68,
   .mov (.r 0) .sp,
   .bl S.hilevelHandlerRst,
   .ldmia .sp [.r 0, .lr],
   .msrSpsr (.r 0),
   .ldmiaUsr .sp,
   .add .sp .sp 60,
   .movsPcLr]

def lolevelHandlerIrqCode : List Instr :=
  [.sub .lr .lr 4,
   .sub .sp .sp 60,
   .stmiaUsr .sp,
   .mrsSpsr (.r 0),
   .stmdb .sp [.r 0, .lr],
   .mov (.r 0) .sp,
   .bl S.hilevelHandlerIrq,
   .ldmia .sp [.r 0, .lr],
   .msrSpsr (.r 0),
   .ldmiaUsr .sp,
   .add .sp .sp 60,
   .movsPcLr]

def lolevelHandlerSvcCode : List Instr :=
  [.sub .lr .lr 0,
   .stmdb .sp [.r 0, .r 1, .r 2, .r 3, .ip, .lr],
   .bl S.hilevelHandlerSvc,
   .ldmia .sp [.r 0, .r 1, .r 2, .r 3, .ip, .lr],
   .movsPcLr]

def intInitCode : List Instr :=
  [.movImm (.r 0) 0,
   .ldrLit (.r 1) S.intData,
   .ldrLit (.r 2) S.intInit,
   .ldrPost (.r 3) (.r 1) 4,
   .strPost (.r 3) (.r 0) 4,
   .cmp (.r 1) (.r 2),
   .bne (S.intInit + 12),
   .movPcLr]

def intEnableIrqCode : List Instr :=
  [.mrsCpsr (.r 0), .bic (.r 0) (.r 0) 0x80, .msrCpsrC (.r 0), .movPcLr]

def hilevelHandlerRstCode : List Instr :=
  [.c .enter, .c .rst, .bl S.intEnableIrq, .c .leave]

def hilevelHandlerIrqCode : List Instr :=
  [.c .enter, .c .iar, .c .timer, .c .eoir, .c .leave]

def hilevelHandlerSvcCode : List Instr :=
  [.c .enter, .c .leave]

end

/-- The instructions `is` stand at `base`. -/
def CodeAt (fetch : Word → Option Instr) (base : Word) (is : List Instr) : Prop :=
  ∀ k i, is[k]? = some i → fetch (base + BitVec.ofNat 32 (4 * k)) = some i

theorem CodeAt.fetch_eq {fetch : Word → Option Instr} {base pc : Word} {is : List Instr}
    (hc : CodeAt fetch base is) {k : ℕ} {i : Instr} (hi : is[k]? = some i)
    (hpc : pc = base + BitVec.ofNat 32 (4 * k)) : fetch pc = some i := by
  rw [hpc]; exact hc k i hi

/-- A kernel image: code in memory, with every function at its symbol. -/
structure Image extends Symbols where
  fetch : Word → Option Instr
  rstCode : CodeAt fetch lolevelHandlerRst (lolevelHandlerRstCode toSymbols)
  irqCode : CodeAt fetch lolevelHandlerIrq (lolevelHandlerIrqCode toSymbols)
  svcCode : CodeAt fetch lolevelHandlerSvc (lolevelHandlerSvcCode toSymbols)
  intInitCode : CodeAt fetch toSymbols.intInit (intInitCode toSymbols)
  intEnableIrqCode : CodeAt fetch intEnableIrq intEnableIrqCode
  hRstCode : CodeAt fetch hilevelHandlerRst (hilevelHandlerRstCode toSymbols)
  hIrqCode : CodeAt fetch hilevelHandlerIrq hilevelHandlerIrqCode
  hSvcCode : CodeAt fetch hilevelHandlerSvc hilevelHandlerSvcCode

/-! ## `image.bin` -/

def Symbols.image : Symbols where
  toLayout := .image
  lolevelHandlerRst := 0x70010000
  lolevelHandlerIrq := 0x70010034
  lolevelHandlerSvc := 0x70010064
  intData := 0x70010080
  intEnableIrq := 0x700100cc
  hilevelHandlerRst := 0x7001027c
  hilevelHandlerIrq := 0x700103c0
  hilevelHandlerSvc := 0x70010428

/-- The functions of the kernel, each with its address. -/
def Symbols.functions (S : Symbols) : List (Word × List Instr) :=
  [(S.lolevelHandlerRst, lolevelHandlerRstCode S),
   (S.lolevelHandlerIrq, lolevelHandlerIrqCode S),
   (S.lolevelHandlerSvc, lolevelHandlerSvcCode S),
   (S.intInit, intInitCode S),
   (S.intEnableIrq, intEnableIrqCode),
   (S.hilevelHandlerRst, hilevelHandlerRstCode S),
   (S.hilevelHandlerIrq, hilevelHandlerIrqCode),
   (S.hilevelHandlerSvc, hilevelHandlerSvcCode)]

def fetchFrom (fs : List (Word × List Instr)) (a : Word) : Option Instr :=
  fs.findSome? fun f => if (a - f.1).toNat % 4 = 0 then f.2[(a - f.1).toNat / 4]? else none

theorem codeAt_of_forall {fetch : Word → Option Instr} {base : Word} {is : List Instr}
    (h : ∀ k < is.length, fetch (base + BitVec.ofNat 32 (4 * k)) = is[k]?) : CodeAt fetch base is := by
  intro k i hi
  rw [h k (List.getElem?_eq_some_iff.1 hi).1, hi]

/-- The kernel of `image.bin`. -/
def Image.bin : Image where
  toSymbols := .image
  fetch := fetchFrom Symbols.image.functions
  rstCode := codeAt_of_forall (by decide +kernel)
  irqCode := codeAt_of_forall (by decide +kernel)
  svcCode := codeAt_of_forall (by decide +kernel)
  intInitCode := codeAt_of_forall (by decide +kernel)
  intEnableIrqCode := codeAt_of_forall (by decide +kernel)
  hRstCode := codeAt_of_forall (by decide +kernel)
  hIrqCode := codeAt_of_forall (by decide +kernel)
  hSvcCode := codeAt_of_forall (by decide +kernel)

/-! ## Steps -/

/-- What a user-mode step leaves in the registers of its process, in the flags
    and in the stack memory. -/
structure UserStep where
  gpr : Fin 13 → Word
  sp : Word
  lr : Word
  pc : Word
  flags : Word
  mem : Mem

inductive Label where
  | user (u : UserStep)
  | svc
  /-- an IRQ exception, for which `GICC0->IAR` reads `id` -/
  | irq (id : Word)
  | exec (x : Scratch)

def Label.IsExec : Label → Prop
  | exec _ => True
  | _ => False

namespace Machine

def user (u : UserStep) (m : Machine) : Machine :=
  { m with
    gpr := u.gpr
    sp := Function.update m.sp .usr u.sp
    lr := Function.update m.lr .usr u.lr
    pc := u.pc
    cpsr := psrWrite flagBits m.cpsr u.flags
    kernel.mem := u.mem }

/-- The core enters `μ` at `handler`, with `ret` as its return address. -/
def exception (μ : Mode) (handler ret : Word) (m : Machine) : Machine :=
  { m with
    lr := Function.update m.lr μ ret
    spsr := Function.update m.spsr μ m.cpsr
    cpsr := exceptionPsr m.cpsr μ
    pc := handler }

/-- The `svc` instruction has been executed: `pc` is past it. -/
def takeSvc (S : Symbols) (m : Machine) : Machine :=
  m.exception .svc S.lolevelHandlerSvc m.pc

/-- The instruction at `pc` has not been executed, and the core adds 4. -/
def takeIrq (S : Symbols) (id : Word) (m : Machine) : Machine :=
  { m.exception .irq S.lolevelHandlerIrq (m.pc + 4) with kernel.dev.gicc0.iar := id }

/-- The state in which the core enters the image: SVC mode, IRQs and FIQs
    masked, static data initialised. -/
structure Reset (S : Symbols) (m : Machine) : Prop where
  mode : m.mode = some .svc
  masked : m.cpsr &&& 0xC0 = 0xC0
  pc : m.pc = S.lolevelHandlerRst
  executing : m.kernel.executing = none
  frames : m.frames = []

/-- The state in which QEMU enters an image. -/
def powerOn (S : Symbols) : Machine where
  gpr _ := 0
  sp _ := 0
  lr _ := 0
  spsr _ := 0
  cpsr := 0x1D3
  pc := S.lolevelHandlerRst
  kernel := .cleared
  frames := []

theorem reset_powerOn (S : Symbols) : (powerOn S).Reset S := by
  refine ⟨?_, ?_, rfl, rfl, rfl⟩
  · show Mode.ofPsr 0x1D3 = some .svc
    decide
  · show (0x1D3 : Word) &&& 0xC0 = 0xC0
    decide

end Machine

/-- One step of the machine running an image. -/
def Image.step (im : Image) (m : Machine) : Label → Option Machine
  | .user u => if m.mode = some .usr then some (m.user u) else none
  | .svc => if m.mode = some .usr then some (m.takeSvc im.toSymbols) else none
  | .irq id => if m.Masked then none else some (m.takeIrq im.toSymbols id)
  | .exec x => match m.mode with
    | some .usr | none => none
    | some μ => (im.fetch m.pc).bind fun i => i.exec im.toLayout μ x m

namespace Image
variable {im : Image} {m m' : Machine}

theorem step_exec {μ : Mode} {i : Instr} (hμ : m.mode = some μ) (hp : μ ≠ .usr)
    (hf : im.fetch m.pc = some i) (x : Scratch) :
    im.step m (.exec x) = i.exec im.toLayout μ x m := by
  unfold step
  rw [hμ, hf]
  cases μ
  · exact absurd rfl hp
  · rfl
  · rfl

theorem step_user (h : m.mode = some .usr) (u : UserStep) : im.step m (.user u) = some (m.user u) :=
  if_pos h

theorem step_svc (h : m.mode = some .usr) :
    im.step m .svc = some (m.takeSvc im.toSymbols) := if_pos h

theorem step_irq (h : ¬ m.Masked) (id : Word) :
    im.step m (.irq id) = some (m.takeIrq im.toSymbols id) := if_neg h

/-- Only USR mode takes user steps and SVC exceptions, only an unmasked core
    IRQ exceptions, and only a privileged mode executes the kernel. -/
theorem step_cases {l : Label} (h : im.step m l = some m') :
    (m.mode = some .usr ∧ ∃ u, l = .user u ∧ m' = m.user u) ∨
    (m.mode = some .usr ∧ l = .svc ∧ m' = m.takeSvc im.toSymbols) ∨
    (¬ m.Masked ∧ ∃ id, l = .irq id ∧ m' = m.takeIrq im.toSymbols id) ∨
    (m.mode ≠ some .usr ∧ ∃ x, l = .exec x) := by
  cases l with
  | user u =>
    simp only [step, Option.ite_none_right_eq_some, Option.some.injEq] at h
    exact Or.inl ⟨h.1, u, rfl, h.2.symm⟩
  | svc =>
    simp only [step, Option.ite_none_right_eq_some, Option.some.injEq] at h
    exact Or.inr (Or.inl ⟨h.1, rfl, h.2.symm⟩)
  | irq id =>
    simp only [step, Option.ite_none_left_eq_some, Option.some.injEq] at h
    exact Or.inr (Or.inr (Or.inl ⟨h.1, id, rfl, h.2.symm⟩))
  | exec x =>
    refine Or.inr (Or.inr (Or.inr ⟨fun hu => ?_, x, rfl⟩))
    simp [step, hu] at h

/-- A path through the kernel's code. -/
abbrev Path (im : Image) (P Q : Machine → Prop) (n : ℕ) (m : Machine) : Prop :=
  Goes im.step Label.IsExec P Q n m

/-- The next instruction of a path, at index `k` of a function. -/
theorem Path.instr {P Q : Machine → Prop} {n : ℕ} {base : Word} {is : List Instr} {i : Instr}
    {μ : Mode} (k : ℕ) (hc : CodeAt im.fetch base is) (hi : is[k]? = some i)
    (hpc : m.pc = base + BitVec.ofNat 32 (4 * k)) (hμ : m.mode = some μ) (hp : μ ≠ .usr) (hP : P m)
    (hnext : ∀ x, ∃ m', i.exec im.toLayout μ x m = some m' ∧ im.Path P Q n m') :
    im.Path P Q (n + 1) m := by
  refine ⟨hP, fun l hl => ?_⟩
  cases l with
  | exec x =>
    rw [step_exec hμ hp (hc.fetch_eq hi hpc)]
    exact hnext x
  | _ => exact hl.elim

end Image

end CcKernel
