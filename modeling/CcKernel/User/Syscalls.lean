/-
  The system calls of the user library (`user/libc.c`).

  Each is a wrapper: it moves its arguments to r0, r1, …, executes an `svc` and
  takes the result from r0.  The compiler chooses the registers of its operands
  among those that the wrapper does not declare as clobbered.

  The kernel has no system calls (`hilevel_handler_svc` is empty), so a wrapper
  returns what it has put into r0 itself.
-/
import CcKernel.Kernel.Isolation

namespace CcKernel

open WordMem Lts Multiplex

/-! ## Code -/

/-- An instruction of a wrapper. -/
inductive UserInstr where
  | mov (rd rm : Reg)
  | svc (id : Word)

namespace Ctx

def reg (c : Ctx) : Reg → Word
  | .r i => c.gpr i
  | .sp => c.sp
  | .lr => c.lr

def setReg (c : Ctx) (v : Word) : Reg → Ctx
  | .r i => { c with gpr := Function.update c.gpr i v }
  | .sp => { c with sp := v }
  | .lr => { c with lr := v }

@[simp] theorem setReg_pc (c : Ctx) (v : Word) (r : Reg) : (c.setReg v r).pc = c.pc := by
  cases r <;> rfl

@[simp] theorem setReg_cpsr (c : Ctx) (v : Word) (r : Reg) : (c.setReg v r).cpsr = c.cpsr := by
  cases r <;> rfl

def next (c : Ctx) : Ctx := { c with pc := c.pc + 4 }

@[simp] theorem next_pc (c : Ctx) : c.next.pc = c.pc + 4 := rfl

@[simp] theorem next_cpsr (c : Ctx) : c.next.cpsr = c.cpsr := rfl

end Ctx

/-- A step to the context `c`, with the memory as it is. -/
def UserStep.to (c : Ctx) (mem : Mem) : UserStep := ⟨c.gpr, c.sp, c.lr, c.pc, c.cpsr, mem⟩

namespace UserInstr

def effect : UserInstr → Ctx → Ctx
  | mov rd rm, c => (c.setReg (c.reg rm) rd).next
  | svc _, c => c.next

def act (c : Ctx) (mem : Mem) : UserInstr → UserAct
  | mov rd rm => ⟨.to ((mov rd rm).effect c) mem, false⟩
  | svc id => ⟨.to ((svc id).effect c) mem, true⟩

end UserInstr

variable {ξ : Type}

/-- The program has the code at `base`. -/
def HasCode (f : ξ → Ctx → UserAct) (base : Word) (is : List UserInstr) : Prop :=
  ∀ k i, is[k]? = some i → ∀ x c, c.pc = base + BitVec.ofNat 32 (4 * k) → ∃ mem, f x c = i.act c mem

theorem HasCode.tail {f : ξ → Ctx → UserAct} {base : Word} {i : UserInstr} {is : List UserInstr}
    (h : HasCode f base (i :: is)) : HasCode f (base + 4) is := by
  intro k j hj x c hc
  refine h (k + 1) j hj x c ?_
  rw [hc, BitVec.add_assoc]
  congr 1
  rw [Nat.mul_succ, BitVec.ofNat_add, BitVec.add_comm]
  rfl

/-- The register of argument `i`. -/
def argReg (i : ℕ) : Reg := .r (Fin.ofNat 13 i)

/-- A register that an operand may have if `k` registers are clobbered. -/
abbrev Operand (k : ℕ) : Type := {r : Reg // ∀ i < k, r ≠ argReg i}

/-- A wrapper with its operands: the call, the clobbered registers, the arguments
    and the result. -/
structure Wrapper where
  id : Word
  clobbers : ℕ
  args : List (Operand clobbers)
  res : Option (Operand clobbers)
  args_le : args.length ≤ clobbers
  clobbers_le : clobbers ≤ 3

namespace Wrapper

def yield : Wrapper := ⟨0x00, 0, [], none, by decide, by decide⟩

def write (fd x n r : Operand 3) : Wrapper := ⟨0x01, 3, [fd, x, n], some r, le_rfl, le_rfl⟩

def read (fd x n r : Operand 3) : Wrapper := ⟨0x02, 3, [fd, x, n], some r, le_rfl, le_rfl⟩

def fork (r : Operand 1) : Wrapper := ⟨0x03, 1, [], some r, by decide, by decide⟩

def exit (x : Operand 1) : Wrapper := ⟨0x04, 1, [x], none, le_rfl, by decide⟩

def exec (x : Operand 1) : Wrapper := ⟨0x05, 1, [x], none, le_rfl, by decide⟩

def kill (pid x r : Operand 2) : Wrapper := ⟨0x06, 2, [pid, x], some r, le_rfl, by decide⟩

def nice (pid x : Operand 2) : Wrapper := ⟨0x07, 2, [pid, x], none, le_rfl, by decide⟩

/-- `mov ri, %…` for the arguments from the `i`-th on. -/
def moves {k : ℕ} (i : ℕ) : List (Operand k) → List UserInstr
  | [] => []
  | r :: rs => .mov (argReg i) r :: moves (i + 1) rs

def code (W : Wrapper) : List UserInstr :=
  moves 0 W.args ++ .svc W.id :: (W.res.map fun r => .mov r.1 (.r 0)).toList

/-- What a wrapper returns: its first argument, or what r0 has held before. -/
def answer (W : Wrapper) (c : Ctx) : Word :=
  match W.args with
  | [] => c.gpr 0
  | r :: _ => c.reg r

end Wrapper

/-! ## What a wrapper returns -/

namespace Wrapper

end Wrapper

end CcKernel
