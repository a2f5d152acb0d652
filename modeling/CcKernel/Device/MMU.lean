/-
  The memory management unit (`device/MMU.s`): its registers in co-processor 15
  and the functions that set them.

  The Domain Access Control Register holds two bits for each of 16 domains.
  `mmu_set_dom` clears the two bits of its domain but does not cut the value it
  is given to two bits, so that the others end up in the domains above.
-/
import CcKernel.Lib.Setting
import CcKernel.Lib.WordMem
import Mathlib.Data.List.DropRight

namespace CcKernel

open WordMem Setting

/-- The registers of co-processor 15, named by `CRn`, `CRm` and `opc2`. -/
inductive Cp15 where
  /-- `c1, c0, 0` -/
  | sctlr
  /-- `c2, c0, 0` -/
  | ttbr0
  /-- `c2, c0, 1` -/
  | ttbr1
  /-- `c3, c0, 0` -/
  | dacr
  /-- `c8, c7, 0` -/
  | tlbiall
  deriving DecidableEq, Repr

inductive MmuInstr where
  | movImm (rd : Fin 13) (imm : Word)
  /-- `mov rd, rm, lsl rs` -/
  | movLsl (rd rm rs : Fin 13)
  | add (rd rn rm : Fin 13)
  | bic (rd rn rm : Fin 13)
  | bicImm (rd rn : Fin 13) (imm : Word)
  | orr (rd rn rm : Fin 13)
  | orrImm (rd rn : Fin 13) (imm : Word)
  | mrc (rd : Fin 13) (c : Cp15)
  | mcr (rd : Fin 13) (c : Cp15)
  deriving DecidableEq, Repr

/-- The core and the co-processor. -/
structure Mmu where
  gpr : Fin 13 → Word
  cp15 : Cp15 → Word

namespace Mmu

def set (m : Mmu) (rd : Fin 13) (v : Word) : Mmu := { m with gpr := Function.update m.gpr rd v }

/-- A shift by a register is by its lowest byte. -/
def exec (m : Mmu) : MmuInstr → Mmu
  | .movImm rd imm => m.set rd imm
  | .movLsl rd rm rs => m.set rd (m.gpr rm <<< ((m.gpr rs).toNat % 256))
  | .add rd rn rm => m.set rd (m.gpr rn + m.gpr rm)
  | .bic rd rn rm => m.set rd (m.gpr rn &&& ~~~m.gpr rm)
  | .bicImm rd rn imm => m.set rd (m.gpr rn &&& ~~~imm)
  | .orr rd rn rm => m.set rd (m.gpr rn ||| m.gpr rm)
  | .orrImm rd rn imm => m.set rd (m.gpr rn ||| imm)
  | .mrc rd c => m.set rd (m.cp15 c)
  | .mcr rd c => { m with cp15 := Function.update m.cp15 c (m.gpr rd) }

/-- A function up to its `mov pc, lr`. -/
def run (m : Mmu) (code : List MmuInstr) : Mmu := code.foldl exec m

end Mmu

def mmuEnable : List MmuInstr := [.mrc 0 .sctlr, .orrImm 0 0 0x1, .mcr 0 .sctlr]

def mmuUnable : List MmuInstr := [.mrc 0 .sctlr, .bicImm 0 0 0x1, .mcr 0 .sctlr]

def mmuFlush : List MmuInstr := [.movImm 0 0x0, .mcr 0 .tlbiall]

def mmuSetPtr0 : List MmuInstr := [.mcr 0 .ttbr0]

def mmuSetPtr1 : List MmuInstr := [.mcr 0 .ttbr1]

def mmuSetDom : List MmuInstr :=
  [.add 0 0 0, .movLsl 1 1 0, .movImm 2 3, .movLsl 2 2 0, .mrc 0 .dacr, .bic 0 0 2, .orr 0 0 1,
    .mcr 0 .dacr]

/-! ## One call -/

/-- `mmu_set_dom( d, x )`, and what the registers without an argument hold. -/
structure DomCall where
  d : Fin 16
  x : UInt8
  regs : Fin 13 → Word

namespace DomCall

/-- The value that is passed in `r1`. -/
def arg (c : DomCall) : Word := c.x.toBitVec.setWidth 32

def gpr (c : DomCall) : Fin 13 → Word :=
  Function.update (Function.update c.regs 0 (BitVec.ofNat 32 c.d)) 1 c.arg

/-- The permission that is to be set. -/
def perm (c : DomCall) : BitVec 2 := c.x.toBitVec.setWidth 2

/-- The bits of `x` that end up in another domain. -/
def spill (c : DomCall) (e : Fin 16) : BitVec 2 :=
  if c.d < e then c.x.toBitVec.extractLsb' (2 * (e - c.d : ℕ)) 2 else 0

end DomCall

/-- The permission of a domain in the DACR. -/
def dom (e : Fin 16) (v : Word) : BitVec 2 := v.extractLsb' (2 * e) 2

/-- The co-processor after a call. -/
def setDom (p : Cp15 → Word) (c : DomCall) : Cp15 → Word := (Mmu.run ⟨c.gpr, p⟩ mmuSetDom).cp15

/-- Two bits are cleared, and all bits of `x` set. -/
theorem setDom_eq (p : Cp15 → Word) (c : DomCall) :
    setDom p c = Function.update p .dacr
      (p .dacr &&& ~~~((3 : Word) <<< (2 * c.d : ℕ)) ||| c.arg <<< (2 * c.d : ℕ)) := by
  have hindex : ((c.d : ℕ) + c.d) % 256 = 2 * c.d := by
    have hd := c.d.isLt
    omega
  simp [setDom, Mmu.run, mmuSetDom, Mmu.exec, Mmu.set, DomCall.gpr, hindex]

/-! ## The fields -/

theorem getLsbD_three (i : ℕ) : (3 : Word).getLsbD i = decide (i < 2) := by
  have htest : Nat.testBit 3 i = decide (i < 2) := Nat.testBit_two_pow_sub_one 2 i
  rw [show (3 : Word) = BitVec.ofNat 32 3 from rfl, BitVec.getLsbD_ofNat, htest,
    ← Bool.decide_and, decide_eq_decide]
  omega

/-- The bits of the DACR after a call. -/
theorem getLsbD_setDom (p : Cp15 → Word) (c : DomCall) {i : ℕ} (hi : i < 32) :
    (setDom p c .dacr).getLsbD i =
      ((p .dacr).getLsbD i && !decide (2 * c.d ≤ i ∧ i < 2 * c.d + 2) ||
        decide (2 * c.d ≤ i) && c.x.toBitVec.getLsbD (i - 2 * c.d)) := by
  rw [setDom_eq, Function.update_self]
  simp only [BitVec.getLsbD_or, BitVec.getLsbD_and, BitVec.getLsbD_not, BitVec.getLsbD_shiftLeft,
    getLsbD_three, DomCall.arg, BitVec.getLsbD_setWidth, hi, decide_true, Bool.true_and]
  by_cases hd : 2 * (c.d : ℕ) ≤ i
  · have hlt : i - 2 * (c.d : ℕ) < 32 := by omega
    have hfield : i - 2 * (c.d : ℕ) < 2 ↔ i < 2 * c.d + 2 := by omega
    simp [hd, hlt, hfield, Nat.not_lt.2 hd]
  · simp [hd, Nat.lt_of_not_le hd]

theorem getElem_dom (e : Fin 16) (v : Word) {i : ℕ} (hi : i < 2) :
    (dom e v)[i] = v.getLsbD (2 * e + i) := by
  rw [dom, BitVec.getElem_extractLsb']

theorem dom_setDom_self (p : Cp15 → Word) (c : DomCall) : dom c.d (setDom p c .dacr) = c.perm := by
  ext i hi
  have hlt : 2 * (c.d : ℕ) + i < 32 := by
    have hd := c.d.isLt
    omega
  rw [getElem_dom _ _ hi, getLsbD_setDom p c hlt]
  simp [DomCall.perm, hi]

theorem dom_setDom_of_ne (p : Cp15 → Word) {c : DomCall} {e : Fin 16} (h : c.d ≠ e) :
    dom e (setDom p c .dacr) = dom e (p .dacr) ||| c.spill e := by
  ext i hi
  have he := e.isLt
  have hne : (c.d : ℕ) ≠ e := fun heq => h (Fin.ext heq)
  have hout : ¬ (2 * (c.d : ℕ) ≤ 2 * e + i ∧ 2 * (e : ℕ) + i < 2 * c.d + 2) := by omega
  rw [BitVec.getElem_or, getElem_dom _ _ hi, getElem_dom _ _ hi, getLsbD_setDom p c (by omega),
    decide_eq_false hout, Bool.not_false, Bool.and_true, DomCall.spill]
  congr 1
  by_cases hlt : c.d < e
  · have hle : 2 * (c.d : ℕ) ≤ 2 * e + i := by omega
    have hindex : 2 * (e : ℕ) + i - 2 * c.d = 2 * (e - c.d) + i := by omega
    rw [if_pos hlt, BitVec.getElem_extractLsb', decide_eq_true hle, Bool.true_and, hindex]
  · have hle : ¬ 2 * (c.d : ℕ) ≤ 2 * e + i := by omega
    rw [if_neg hlt, decide_eq_false hle, Bool.false_and]
    simp

/-- The other registers are left alone. -/
theorem setDom_of_ne (p : Cp15 → Word) (c : DomCall) {r : Cp15} (h : r ≠ .dacr) :
    setDom p c r = p r := by
  rw [setDom_eq, Function.update_of_ne h]

/-- The fields make up the register. -/
theorem ext_dom {v w : Word} (h : ∀ e, dom e v = dom e w) : v = w := by
  apply BitVec.eq_of_getLsbD_eq
  intro i hi
  have hbit := congrArg (fun f : BitVec 2 => f.getLsbD (i % 2)) (h ⟨i / 2, by omega⟩)
  have hmod : i % 2 < 2 := Nat.mod_lt _ two_pos
  simpa [dom, hmod, Nat.div_add_mod] using hbit

/-! ## Sequences of calls -/

def setDoms (p : Cp15 → Word) (cs : List DomCall) : Cp15 → Word := cs.foldl setDom p

/-- What a domain is to hold: the permission of the last call that names it, or what it
    has held before. -/
def wanted (p : Cp15 → Word) (cs : List DomCall) (e : Fin 16) : BitVec 2 :=
  ((cs.filter fun c => c.d = e).getLast?).elim (dom e (p .dacr)) DomCall.perm

def Isolated (p : Cp15 → Word) (cs : List DomCall) : Prop :=
  ∀ e, dom e (setDoms p cs .dacr) = wanted p cs e

/-- The calls since a domain has last been named have only bits for it that it is to hold
    anyway. -/
def Contained (p : Cp15 → Word) (cs : List DomCall) : Prop :=
  ∀ e, ∀ c ∈ cs.rtakeWhile (fun c => c.d ≠ e), wanted p cs e ||| c.spill e = wanted p cs e

theorem wanted_concat_self (p : Cp15 → Word) (cs : List DomCall) (c : DomCall) :
    wanted p (cs ++ [c]) c.d = c.perm := by
  simp [wanted, List.filter_append]

theorem wanted_concat_of_ne (p : Cp15 → Word) (cs : List DomCall) {c : DomCall} {e : Fin 16}
    (h : c.d ≠ e) : wanted p (cs ++ [c]) e = wanted p cs e := by
  simp [wanted, List.filter_append, h]

theorem setDoms_concat (p : Cp15 → Word) (cs : List DomCall) (c : DomCall) :
    setDoms p (cs ++ [c]) = setDom (setDoms p cs) c := List.foldl_concat ..

theorem setDoms_of_ne (p : Cp15 → Word) (cs : List DomCall) {r : Cp15} (h : r ≠ .dacr) :
    setDoms p cs r = p r := by
  induction cs generalizing p with
  | nil => rfl
  | cons c cs ih => exact (ih (setDom p c)).trans (setDom_of_ne p c h)

/-- **What a domain holds in the end**: what it is to hold, and the bits of the calls since
    it has last been named. -/
theorem dom_setDoms (p : Cp15 → Word) (cs : List DomCall) (e : Fin 16) :
    dom e (setDoms p cs .dacr) =
      (cs.rtakeWhile fun c => c.d ≠ e).foldl (fun f c => f ||| c.spill e) (wanted p cs e) := by
  induction cs using List.reverseRecOn with
  | nil => rfl
  | append_singleton cs c ih =>
    rw [setDoms_concat]
    by_cases h : c.d = e
    · subst h
      rw [dom_setDom_self, List.rtakeWhile_concat_neg _ _ _ (by simp), wanted_concat_self]
      rfl
    · rw [dom_setDom_of_ne _ h, ih, List.rtakeWhile_concat_pos _ _ _ (by simpa using h),
        wanted_concat_of_ne _ _ h, List.foldl_concat]

/-! ### Bits that are already there -/

theorem or_foldl {α : Type*} {n : ℕ} (g : α → BitVec n) (as : List α) (w : BitVec n) :
    w ||| as.foldl (fun f a => f ||| g a) w = as.foldl (fun f a => f ||| g a) w := by
  induction as generalizing w with
  | nil => exact BitVec.or_self
  | cons a as ih =>
    rw [List.foldl_cons]
    conv_lhs => rw [← ih (w ||| g a)]
    rw [← BitVec.or_assoc, ← BitVec.or_assoc, BitVec.or_self, ih]

/-- A value stays the same if each of the others has only bits of it. -/
theorem foldl_or_eq_iff {α : Type*} {n : ℕ} (g : α → BitVec n) (as : List α) (w : BitVec n) :
    as.foldl (fun f a => f ||| g a) w = w ↔ ∀ a ∈ as, w ||| g a = w := by
  induction as generalizing w with
  | nil => simp
  | cons a as ih =>
    rw [List.foldl_cons, List.forall_mem_cons]
    constructor
    · intro h
      have ha : w ||| g a = w := by
        have hle := or_foldl g as (w ||| g a)
        rwa [h, BitVec.or_comm, ← BitVec.or_assoc, BitVec.or_self] at hle
      rw [ha] at h
      exact ⟨ha, (ih w).1 h⟩
    · rintro ⟨ha, has⟩
      rw [ha]
      exact (ih w).2 has

theorem isolated_iff (p : Cp15 → Word) (cs : List DomCall) : Isolated p cs ↔ Contained p cs := by
  refine forall_congr' fun e => ?_
  rw [dom_setDoms]
  exact foldl_or_eq_iff _ _ _

/-! ### Two calls -/

theorem dom_setDoms_pair_of_ne (p : Cp15 → Word) (c : DomCall) {c' : DomCall} {e : Fin 16}
    (h : c'.d ≠ e) :
    dom e (setDoms p [c, c'] .dacr) = dom e (setDom p c .dacr) ||| c'.spill e :=
  dom_setDom_of_ne (setDom p c) h

/-- Sequences that leave the same permissions do the same. -/
theorem setDoms_ext {p : Cp15 → Word} {cs cs' : List DomCall}
    (h : ∀ e, dom e (setDoms p cs .dacr) = dom e (setDoms p cs' .dacr)) :
    setDoms p cs = setDoms p cs' := by
  ext r : 1
  by_cases hr : r = .dacr
  · subst hr
    exact ext_dom h
  · rw [setDoms_of_ne p cs hr, setDoms_of_ne p cs' hr]

/-- Neither call has a bit for the domain of the other that the other does not set. -/
def Apart (c c' : DomCall) : Prop :=
  c'.perm ||| c.spill c'.d = c'.perm ∧ c.perm ||| c'.spill c.d = c.perm

theorem commute_iff (p : Cp15 → Word) {c c' : DomCall} (h : c.d ≠ c'.d) :
    setDoms p [c, c'] = setDoms p [c', c] ↔ Apart c c' := by
  have hfst : dom c.d (setDoms p [c, c'] .dacr) = c.perm ||| c'.spill c.d := by
    rw [dom_setDoms_pair_of_ne p c h.symm, dom_setDom_self]
  have hfst' : dom c'.d (setDoms p [c, c'] .dacr) = c'.perm := dom_setDom_self _ c'
  have hsnd : dom c.d (setDoms p [c', c] .dacr) = c.perm := dom_setDom_self _ c
  have hsnd' : dom c'.d (setDoms p [c', c] .dacr) = c'.perm ||| c.spill c'.d := by
    rw [dom_setDoms_pair_of_ne p c' h, dom_setDom_self]
  constructor
  · intro heq
    rw [heq] at hfst hfst'
    exact ⟨hsnd'.symm.trans hfst', hfst.symm.trans hsnd⟩
  · rintro ⟨hc', hc⟩
    apply setDoms_ext
    intro e
    by_cases he : c.d = e
    · subst he
      rw [hfst, hsnd, hc]
    · by_cases he' : c'.d = e
      · subst he'
        rw [hfst', hsnd', hc']
      · -- both orders add the bits of both calls
        rw [dom_setDoms_pair_of_ne p c he', dom_setDoms_pair_of_ne p c' he, dom_setDom_of_ne _ he,
          dom_setDom_of_ne _ he', BitVec.or_assoc, BitVec.or_assoc, BitVec.or_comm (c.spill e)]

/-- **Domains are isolated from each other** just as long as the bits that spill are bits
    to be set anyway. -/
theorem setDoms_isolated_iff (p : Cp15 → Word) :
    (∀ cs, Isolated p cs ↔ Contained p cs) ∧
      ∀ c c' : DomCall, c.d ≠ c'.d →
        (setDoms p [c, c'] = setDoms p [c', c] ↔ Apart c c') :=
  ⟨isolated_iff p, fun _ _ h => commute_iff p h⟩

/-- Client rights for domain 0 and manager rights for domain 2, in either order. -/
theorem setDoms_isolated_pair :
    Isolated (fun _ => 0) [⟨0, 1, fun _ => 0⟩, ⟨2, 3, fun _ => 0⟩] ∧
      setDoms (fun _ => 0) [⟨0, 1, fun _ => 0⟩, ⟨2, 3, fun _ => 0⟩] =
        setDoms (fun _ => 0) [⟨2, 3, fun _ => 0⟩, ⟨0, 1, fun _ => 0⟩] := by
  obtain ⟨hisolated, hcommute⟩ := setDoms_isolated_iff fun _ => 0
  refine ⟨(hisolated _).2 ?_, (hcommute _ _ (by decide)).2 ?_⟩
  · unfold Contained
    decide
  · unfold Apart
    decide

/-- A call for domain 0 with `x = 4` gives domain 1 a permission. -/
theorem not_isolated_spill : ¬ Isolated (fun _ => 0) [⟨0, 4, fun _ => 0⟩] := by
  intro h
  exact absurd (h 1) (by decide)

/-- Two-bit permissions do not spill, and from the last domain there is nowhere to. -/
theorem spill_eq_zero {c : DomCall} (h : c.x < 4 ∨ c.d = 15) (e : Fin 16) : c.spill e = 0 := by
  unfold DomCall.spill
  split
  · rename_i hlt
    rcases h with h | h
    · ext i hi
      have hx : c.x.toNat < 2 ^ (2 * (e - c.d : ℕ) + i) := by
        have h4 : c.x.toNat < 2 ^ 2 := h
        refine h4.trans_le (Nat.pow_le_pow_right two_pos ?_)
        omega
      rw [BitVec.getElem_extractLsb', ← BitVec.testBit_toNat]
      simpa using Nat.testBit_lt_two_pow hx
    · omega
  · rfl

theorem isolated_of_small (p : Cp15 → Word) {cs : List DomCall}
    (h : ∀ c ∈ cs, c.x < 4 ∨ c.d = 15) : Isolated p cs := by
  rw [isolated_iff]
  intro e c hc
  rw [spill_eq_zero (h c ((List.rtakeWhile_suffix _ cs).subset hc)) e]
  exact BitVec.or_zero

/-! ## The other functions -/

/-- A call of a function of `MMU.h`, with what the registers hold, the argument among
    them. -/
inductive MmuCall where
  | enable (gpr : Fin 13 → Word)
  | unable (gpr : Fin 13 → Word)
  | flush (gpr : Fin 13 → Word)
  | setPtr0 (gpr : Fin 13 → Word)
  | setPtr1 (gpr : Fin 13 → Word)
  | setDom (c : DomCall)

namespace MmuCall

def code : MmuCall → List MmuInstr
  | enable _ => mmuEnable
  | unable _ => mmuUnable
  | flush _ => mmuFlush
  | setPtr0 _ => mmuSetPtr0
  | setPtr1 _ => mmuSetPtr1
  | setDom _ => mmuSetDom

def gpr : MmuCall → Fin 13 → Word
  | enable g | unable g | flush g | setPtr0 g | setPtr1 g => g
  | setDom c => c.gpr

/-- The co-processor after the call. -/
def exec (p : Cp15 → Word) (k : MmuCall) : Cp15 → Word := (Mmu.run ⟨k.gpr, p⟩ k.code).cp15

/-- Does the call enable the MMU, or disable it? -/
def switch? : MmuCall → Option Bool
  | enable _ => some true
  | unable _ => some false
  | _ => none

end MmuCall

namespace MmuCall

/-- What a call writes to a register of which it does not keep any bits. -/
def writes (r : Cp15) : MmuCall → Option Word
  | setPtr0 g => if r = .ttbr0 then some (g 0) else none
  | setPtr1 g => if r = .ttbr1 then some (g 0) else none
  | flush _ => if r = .tlbiall then some 0 else none
  | _ => none

/-- What a call makes of `SCTLR[ M ]`, as a word. -/
def switches (k : MmuCall) : Option Word := k.switch?.map fun b => if b then 1 else 0

end MmuCall

end CcKernel
