/-
  Masking interrupts (`int_enable_irq`, `int_unable_irq`, `int_enable_fiq` and
  `int_unable_fiq` of `kernel/int.s`).

  Each function reads the CPSR, changes one of its bits and writes the control
  field back.  In USR mode a write to the control field has no effect.
-/
import CcKernel.Lib.Setting
import CcKernel.Kernel.Arm

namespace CcKernel

open WordMem Setting

/-- The F bit: FIQ exceptions are masked. -/
def bitF : Word := 0x40

inductive PsrInstr where
  /-- `mrs r0, cpsr` -/
  | mrs
  /-- `bic r0, r0, #imm` -/
  | bic (imm : Word)
  /-- `orr r0, r0, #imm` -/
  | orr (imm : Word)
  /-- `msr cpsr_c, r0` -/
  | msr
  deriving DecidableEq, Repr

structure PsrState where
  r0 : Word
  cpsr : Word

namespace PsrState

def exec (s : PsrState) : PsrInstr → PsrState
  | .mrs => { s with r0 := s.cpsr }
  | .bic imm => { s with r0 := s.r0 &&& ~~~imm }
  | .orr imm => { s with r0 := s.r0 ||| imm }
  | .msr =>
    if Mode.ofPsr s.cpsr = some .usr then s else { s with cpsr := psrWrite fieldC s.cpsr s.r0 }

/-- A function up to its `mov pc, lr`. -/
def run (s : PsrState) (code : List PsrInstr) : PsrState := code.foldl exec s

end PsrState

inductive IntCall where
  | enableIrq | unableIrq | enableFiq | unableFiq
  deriving DecidableEq, Repr

namespace IntCall

def code : IntCall → List PsrInstr
  | enableIrq => [.mrs, .bic 0x80, .msr]
  | unableIrq => [.mrs, .orr 0x80, .msr]
  | enableFiq => [.mrs, .bic 0x40, .msr]
  | unableFiq => [.mrs, .orr 0x40, .msr]

def exec (s : PsrState) (k : IntCall) : PsrState := s.run k.code

/-- What the call makes of the mask of IRQs, -/
def irq? : IntCall → Option Word
  | enableIrq => some 0
  | unableIrq => some bitI
  | _ => none

/-- and of that of FIQs. -/
def fiq? : IntCall → Option Word
  | enableFiq => some 0
  | unableFiq => some bitF
  | _ => none

end IntCall

/-! ## Bits -/

section
variable (c : Word) {b k : Word}

theorem bic_and_self : c &&& ~~~b &&& b = 0 := by
  ext i hi
  simp only [BitVec.getElem_and, BitVec.getElem_not]
  cases b[i] <;> simp

theorem orr_and_self : (c ||| b) &&& b = b := by
  ext i hi
  simp only [BitVec.getElem_and, BitVec.getElem_or]
  cases b[i] <;> simp

/-- The bits outside `b` are left alone. -/
theorem bic_and (h : b &&& k = 0) : c &&& ~~~b &&& k = c &&& k := by
  ext i hi
  have hb := congrArg (fun x : Word => x[i]) h
  simp only [BitVec.getElem_and] at hb
  simp only [BitVec.getElem_and, BitVec.getElem_not]
  revert hb
  cases b[i] <;> cases k[i] <;> simp

theorem orr_and (h : b &&& k = 0) : (c ||| b) &&& k = c &&& k := by
  ext i hi
  have hb := congrArg (fun x : Word => x[i]) h
  simp only [BitVec.getElem_and] at hb
  simp only [BitVec.getElem_and, BitVec.getElem_or]
  revert hb
  cases b[i] <;> cases k[i] <;> simp

/-- A value within the mask is what is written, outside it what was there. -/
theorem psrWrite_eq {mask new : Word} (h : new &&& ~~~mask = c &&& ~~~mask) :
    psrWrite mask c new = new := by
  rw [psrWrite, ← h]
  ext i hi
  simp only [BitVec.getElem_and, BitVec.getElem_or, BitVec.getElem_not]
  cases mask[i] <;> simp

end

/-! ## One call -/

namespace IntCall

/-- The CPSR after a call in a privileged mode. -/
def apply (c : Word) : IntCall → Word
  | enableIrq => c &&& ~~~bitI
  | unableIrq => c ||| bitI
  | enableFiq => c &&& ~~~bitF
  | unableFiq => c ||| bitF

/-- Two bits are changed at most. -/
theorem apply_and {k : Word} (hI : bitI &&& k = 0) (hF : bitF &&& k = 0) (c : Word) (i : IntCall) :
    i.apply c &&& k = c &&& k := by
  cases i with
  | enableIrq => exact bic_and c hI
  | unableIrq => exact orr_and c hI
  | enableFiq => exact bic_and c hF
  | unableFiq => exact orr_and c hF

theorem apply_and_bitI (c : Word) (i : IntCall) :
    i.apply c &&& bitI = (i.irq?).getD (c &&& bitI) := by
  cases i with
  | enableIrq => exact bic_and_self c
  | unableIrq => exact orr_and_self c
  | enableFiq => exact bic_and c (by decide)
  | unableFiq => exact orr_and c (by decide)

theorem apply_and_bitF (c : Word) (i : IntCall) :
    i.apply c &&& bitF = (i.fiq?).getD (c &&& bitF) := by
  cases i with
  | enableIrq => exact bic_and c (by decide)
  | unableIrq => exact orr_and c (by decide)
  | enableFiq => exact bic_and_self c
  | unableFiq => exact orr_and_self c

theorem ofPsr_apply (c : Word) (i : IntCall) : Mode.ofPsr (i.apply c) = Mode.ofPsr c :=
  Mode.ofPsr_congr (apply_and (by decide) (by decide) c i)

/-- A call writes what it has computed, or nothing. -/
theorem exec_cpsr (s : PsrState) (i : IntCall) : (exec s i).cpsr =
    if Mode.ofPsr s.cpsr = some .usr then s.cpsr else i.apply s.cpsr := by
  have hcode : (exec s i).cpsr =
      if Mode.ofPsr s.cpsr = some .usr then s.cpsr
      else psrWrite fieldC s.cpsr (i.apply s.cpsr) := by
    cases i with
    | enableIrq => exact apply_ite PsrState.cpsr ..
    | unableIrq => exact apply_ite PsrState.cpsr ..
    | enableFiq => exact apply_ite PsrState.cpsr ..
    | unableFiq => exact apply_ite PsrState.cpsr ..
  rw [hcode, psrWrite_eq _ (apply_and (by decide) (by decide) _ i)]

end IntCall

/-! ## Sequences of calls -/

/-- A word is made up of two of its bits and the others. -/
theorem eq_bits (c : Word) :
    c = c &&& ~~~(bitI ||| bitF) ||| c &&& bitI ||| c &&& bitF := by
  ext i hi
  simp only [BitVec.getElem_and, BitVec.getElem_or, BitVec.getElem_not]
  cases bitI[i] <;> cases bitF[i] <;> simp

/-- **Interrupts are masked as the last call for their kind has left them**: in a
    privileged mode any calls set the two bits as the last of them for each, and
    change nothing else; in USR mode they change nothing at all. -/
theorem int_calls (r0 c : Word) (is : List IntCall) : (is.foldl IntCall.exec ⟨r0, c⟩).cpsr =
    if Mode.ofPsr c = some .usr then c
    else c &&& ~~~(bitI ||| bitF) ||| last IntCall.irq? is (c &&& bitI) |||
      last IntCall.fiq? is (c &&& bitF) := by
  by_cases hu : Mode.ofPsr c = some .usr
  · rw [if_pos hu]
    have hinv : ∀ (s : PsrState) i, s.cpsr = c → (IntCall.exec s i).cpsr = c := by
      intro s i hs
      rw [IntCall.exec_cpsr, hs, if_pos hu]
    exact foldl_invariant hinv (s := ⟨r0, c⟩) rfl is
  · rw [if_neg hu]
    have happly : ∀ s i, Mode.ofPsr (PsrState.cpsr s) ≠ some .usr →
        (IntCall.exec s i).cpsr = i.apply s.cpsr := by
      intro s i hs
      rw [IntCall.exec_cpsr, if_neg hs]
    have hinv : ∀ s i, Mode.ofPsr (PsrState.cpsr s) ≠ some .usr →
        Mode.ofPsr (IntCall.exec s i).cpsr ≠ some .usr := by
      intro s i hs
      rwa [happly s i hs, IntCall.ofPsr_apply]
    have hI := foldl_last_of (v := fun s => s.cpsr &&& bitI) hinv
      (fun s i hs => by rw [happly s i hs, IntCall.apply_and_bitI]) (s := ⟨r0, c⟩) hu is
    have hF := foldl_last_of (v := fun s => s.cpsr &&& bitF) hinv
      (fun s i hs => by rw [happly s i hs, IntCall.apply_and_bitF]) (s := ⟨r0, c⟩) hu is
    have hrest := foldl_same_of (v := fun s => s.cpsr &&& ~~~(bitI ||| bitF)) hinv
      (fun s i hs => by rw [happly s i hs, IntCall.apply_and (by decide) (by decide)])
      (s := ⟨r0, c⟩) hu is
    rw [eq_bits (is.foldl IntCall.exec ⟨r0, c⟩).cpsr]
    exact congrArg₂ (· ||| ·) (congrArg₂ (· ||| ·) hrest hI) hF

end CcKernel
