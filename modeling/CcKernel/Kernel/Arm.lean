/-
  The processor: the registers of an ARMv7 core in USR, IRQ and SVC mode, and
  the instructions that `kernel/lolevel.s` and `kernel/int.s` are made of.

  C functions run as statements (`Instr.c`), one boundary after each.  What
  compiled C may do besides its statement is in the label of the step: it
  leaves arbitrary values in the caller-saved registers, the flags and the
  memory below the stack pointer.
-/
import CcKernel.Kernel.Hilevel

namespace CcKernel

open WordMem

/-! ## Status registers -/

inductive Mode where
  | usr | irq | svc
  deriving DecidableEq, Repr

theorem Mode.irq_ne_usr : irq ≠ usr := by simp

theorem Mode.svc_ne_usr : svc ≠ usr := by simp

/-- The mode bits of a status register; the other modes are not used. -/
def Mode.ofPsr (psr : Word) : Option Mode :=
  if psr &&& 0x1F = 0x10 then some usr
  else if psr &&& 0x1F = 0x12 then some irq
  else if psr &&& 0x1F = 0x13 then some svc
  else none

def Mode.bits : Mode → Word
  | usr => 0x10
  | irq => 0x12
  | svc => 0x13

/-- The I bit: IRQ exceptions are masked. -/
def bitI : Word := 0x80

/-- The Z flag. -/
def bitZ : Word := 0x40000000

/-- N, Z, C, V and Q -/
def flagBits : Word := 0xF8000000

/-- The fields that `msr` without a suffix writes (`_fc`). -/
def fieldsFC : Word := 0xFF0000FF

/-- The field that `msr cpsr_c` writes. -/
def fieldC : Word := 0x000000FF

/-- A write to the bits of a status register under a mask. -/
def psrWrite (mask old new : Word) : Word := (old &&& ~~~mask) ||| (new &&& mask)

/-- What is known of some bits is known of fewer. -/
theorem and_of_and {x v k b : Word} (h : x &&& k = v) (hb : k &&& b = b) : x &&& b = v &&& b := by
  rw [← h, BitVec.and_assoc, hb]

theorem psrWrite_keep {mask k : Word} (h : mask &&& k = 0) (old new : Word) :
    psrWrite mask old new &&& k = old &&& k := by
  ext i hi
  have hb := congrArg (fun x : Word => x[i]) h
  simp only [BitVec.getElem_and] at hb
  simp only [psrWrite, BitVec.getElem_and, BitVec.getElem_or, BitVec.getElem_not]
  revert hb
  cases mask[i] <;> cases k[i] <;> simp

theorem psrWrite_take {mask k : Word} (h : mask &&& k = k) (old new : Word) :
    psrWrite mask old new &&& k = new &&& k := by
  ext i hi
  have hb := congrArg (fun x : Word => x[i]) h
  simp only [BitVec.getElem_and] at hb
  simp only [psrWrite, BitVec.getElem_and, BitVec.getElem_or, BitVec.getElem_not]
  revert hb
  cases mask[i] <;> cases k[i] <;> simp

theorem Mode.ofPsr_congr {psr psr' : Word} (h : psr &&& 0x1F = psr' &&& 0x1F) :
    ofPsr psr = ofPsr psr' := by
  unfold ofPsr; rw [h]

/-- What an exception leaves in the CPSR: the mode, IRQs masked, ARM state. -/
def exceptionPsr (old : Word) (μ : Mode) : Word := psrWrite 0xBF old (bitI ||| μ.bits)

@[simp] theorem ofPsr_exceptionPsr (old : Word) (μ : Mode) :
    Mode.ofPsr (exceptionPsr old μ) = some μ := by
  rw [exceptionPsr, Mode.ofPsr_congr (psrWrite_take (by decide) _ _)]
  cases μ <;> decide

@[simp] theorem exceptionPsr_masked (old : Word) (μ : Mode) :
    exceptionPsr old μ &&& bitI = bitI := by
  rw [exceptionPsr, psrWrite_take (by decide)]
  cases μ <;> decide

/-! ## Instructions -/

inductive Reg where
  | r (i : Fin 13)
  | sp
  | lr
  deriving DecidableEq, Repr

/-- `ip` -/
def Reg.ip : Reg := r 12

/-- A statement of a high-level handler. -/
inductive CStmt where
  /-- the entry of a function: its return address and its argument -/
  | enter
  /-- `hilevel_handler_rst` up to its call of `int_enable_irq` -/
  | rst
  /-- `uint32_t id = GICC0->IAR` -/
  | iar
  /-- `if(id == GIC_SOURCE_TIMER0) { … }` -/
  | timer
  /-- `GICC0->EOIR = id` -/
  | eoir
  /-- `return` -/
  | leave
  deriving DecidableEq, Repr

inductive Instr where
  | bl (target : Word)
  | bne (target : Word)
  | movPcLr
  | movsPcLr
  | mov (rd rm : Reg)
  | movImm (rd : Reg) (imm : Word)
  /-- `ldr rd, =imm` -/
  | ldrLit (rd : Reg) (imm : Word)
  | add (rd rn : Reg) (imm : Word)
  | sub (rd rn : Reg) (imm : Word)
  | bic (rd rn : Reg) (imm : Word)
  | cmp (rn rm : Reg)
  /-- `ldr rd, [rn], #imm` -/
  | ldrPost (rd rn : Reg) (imm : Word)
  /-- `str rd, [rn], #imm` -/
  | strPost (rd rn : Reg) (imm : Word)
  /-- `ldmia rn!, regs` -/
  | ldmia (rn : Reg) (regs : List Reg)
  /-- `stmdb rn!, regs` -/
  | stmdb (rn : Reg) (regs : List Reg)
  /-- `ldmia rn, {r0-r12, sp, lr}^` -/
  | ldmiaUsr (rn : Reg)
  /-- `stmia rn, {r0-r12, sp, lr}^` -/
  | stmiaUsr (rn : Reg)
  | mrsCpsr (rd : Reg)
  | mrsSpsr (rd : Reg)
  /-- `msr cpsr, #imm` -/
  | msrCpsrImm (imm : Word)
  /-- `msr cpsr_c, rn` -/
  | msrCpsrC (rn : Reg)
  /-- `msr spsr, rn` -/
  | msrSpsr (rn : Reg)
  | c (s : CStmt)
  deriving DecidableEq, Repr

/-! ## Machine -/

/-- An activation of a high-level handler: its return address, its parameter
    `ctx` and its local `id`. -/
structure Frame where
  ret : Word
  ctx : Word
  id : Word

structure Machine where
  gpr : Fin 13 → Word
  sp : Mode → Word
  lr : Mode → Word
  spsr : Mode → Word
  cpsr : Word
  pc : Word
  kernel : Kernel
  frames : List Frame

/-- What a step of compiled C leaves where its callers expect nothing. -/
structure Scratch where
  gpr : Fin 13 → Word
  lr : Word
  flags : Word
  mem : Mem

def Scratch.zero : Scratch := ⟨fun _ => 0, 0, 0, fun _ => 0⟩

namespace Machine

abbrev mem (m : Machine) : Mem := m.kernel.mem

def mode (m : Machine) : Option Mode := Mode.ofPsr m.cpsr

/-- The next IRQ exception is held back. -/
def Masked (m : Machine) : Prop := m.cpsr &&& bitI = bitI

instance (m : Machine) : Decidable m.Masked := inferInstanceAs (Decidable (_ = _))

def get (m : Machine) (μ : Mode) : Reg → Word
  | .r i => m.gpr i
  | .sp => m.sp μ
  | .lr => m.lr μ

def set (m : Machine) (μ : Mode) (v : Word) : Reg → Machine
  | .r i => { m with gpr := Function.update m.gpr i v }
  | .sp => { m with sp := Function.update m.sp μ v }
  | .lr => { m with lr := Function.update m.lr μ v }

/-- Load a list of registers. -/
def setAll (m : Machine) (μ : Mode) : List Reg → List Word → Machine
  | r :: rs, w :: ws => (m.set μ w r).setAll μ rs ws
  | _, _ => m

def withMem (m : Machine) (mem : Mem) : Machine := { m with kernel.mem := mem }

def next (m : Machine) : Machine := { m with pc := m.pc + 4 }

/-- The flags of `cmp a, b`. -/
def cmpFlags (a b : Word) : Word :=
  (if (a - b).msb then 0x80000000 else 0) ||| (if a = b then bitZ else 0) |||
  (if b ≤ a then 0x20000000 else 0) |||
  (if a.msb ≠ b.msb ∧ (a - b).msb ≠ a.msb then 0x10000000 else 0)

theorem cmpFlags_bitZ (a b : Word) : cmpFlags a b &&& bitZ = if a = b then bitZ else 0 := by
  unfold cmpFlags bitZ
  split_ifs <;> decide

/-- The effect of the rest of a C step: r0-r3 and ip, lr, the flags and the
    memory below the stack pointer. -/
def clobber (m : Machine) (μ : Mode) (x : Scratch) : Machine :=
  { m with
    gpr := fun i => if i < 4 ∨ i = 12 then x.gpr i else m.gpr i
    lr := Function.update m.lr μ x.lr
    cpsr := psrWrite flagBits m.cpsr x.flags
    kernel.mem := below m.mem (m.sp μ) x.mem }

end Machine

/-- One statement of a high-level handler, in mode `μ`; `none` where the C code
    has no defined behaviour. -/
def CStmt.exec (L : Layout) (μ : Mode) (m : Machine) : CStmt → Option Machine
  | enter => some { m with frames := ⟨m.lr μ, m.gpr 0, 0⟩ :: m.frames, pc := m.pc + 4 }
  | rst => m.frames.head?.map fun f =>
      { m with kernel := hilevelHandlerRst L f.ctx m.kernel, pc := m.pc + 4 }
  | iar => match m.frames with
    | f :: fs => some { m with frames := { f with id := m.kernel.dev.gicc0.iar } :: fs, pc := m.pc + 4 }
    | [] => none
  | timer => m.frames.head?.bind fun f =>
      (handleTimer f.id f.ctx m.kernel).map fun k => { m with kernel := k, pc := m.pc + 4 }
  | eoir => m.frames.head?.map fun f =>
      { m with kernel := endOfInterrupt f.id m.kernel, pc := m.pc + 4 }
  | leave => match m.frames with
    | f :: fs => some { m with frames := fs, pc := f.ret }
    | [] => none

/-- One instruction, in mode `μ`. -/
def Instr.exec (L : Layout) (μ : Mode) (x : Scratch) (m : Machine) : Instr → Option Machine
  | bl t => some { m with lr := Function.update m.lr μ (m.pc + 4), pc := t }
  | bne t => some { m with pc := if m.cpsr &&& bitZ = 0 then t else m.pc + 4 }
  | movPcLr => some { m with pc := m.lr μ }
  | movsPcLr => some { m with cpsr := m.spsr μ, pc := m.lr μ }
  | mov rd rm => some (m.set μ (m.get μ rm) rd).next
  | movImm rd imm | ldrLit rd imm => some (m.set μ imm rd).next
  | add rd rn imm => some (m.set μ (m.get μ rn + imm) rd).next
  | sub rd rn imm => some (m.set μ (m.get μ rn - imm) rd).next
  | bic rd rn imm => some (m.set μ (m.get μ rn &&& ~~~imm) rd).next
  | cmp rn rm =>
    some { m with
      cpsr := psrWrite 0xF0000000 m.cpsr (Machine.cmpFlags (m.get μ rn) (m.get μ rm))
      pc := m.pc + 4 }
  | ldrPost rd rn imm =>
    some ((m.set μ (m.mem (m.get μ rn)) rd).set μ (m.get μ rn + imm) rn).next
  | strPost rd rn imm =>
    some ((m.withMem (store m.mem (m.get μ rn) [m.get μ rd])).set μ (m.get μ rn + imm) rn).next
  | ldmia rn regs =>
    let a := m.get μ rn
    some ((m.setAll μ regs (load m.mem a regs.length)).set μ
      (a + BitVec.ofNat 32 (4 * regs.length)) rn).next
  | stmdb rn regs =>
    let a := m.get μ rn - BitVec.ofNat 32 (4 * regs.length)
    some ((m.withMem (store m.mem a (regs.map (m.get μ)))).set μ a rn).next
  | ldmiaUsr rn =>
    let ws := load m.mem (m.get μ rn) 15
    some { m with
      gpr := fun i => ws.getD i 0
      sp := Function.update m.sp .usr (ws.getD 13 0)
      lr := Function.update m.lr .usr (ws.getD 14 0)
      pc := m.pc + 4 }
  | stmiaUsr rn =>
    some (m.withMem (store m.mem (m.get μ rn) (List.ofFn m.gpr ++ [m.sp .usr, m.lr .usr]))).next
  | mrsCpsr rd => some (m.set μ m.cpsr rd).next
  | mrsSpsr rd => some (m.set μ (m.spsr μ) rd).next
  | msrCpsrImm imm => some { m with cpsr := psrWrite fieldsFC m.cpsr imm, pc := m.pc + 4 }
  | msrCpsrC rn => some { m with cpsr := psrWrite fieldC m.cpsr (m.get μ rn), pc := m.pc + 4 }
  | msrSpsr rn =>
    some { m with
      spsr := Function.update m.spsr μ (psrWrite fieldsFC (m.spsr μ) (m.get μ rn))
      pc := m.pc + 4 }
  | c s => (s.exec L μ m).map fun m' => m'.clobber μ x

end CcKernel
