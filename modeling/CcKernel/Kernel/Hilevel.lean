/-
  The C half of the kernel (`kernel/hilevel.c`, `kernel/hilevel.h`): the process
  table, `dispatch`, `schedule` and the three high-level handlers.

  A `pcb_t*` is `NULL` or points into `procTab`, so it is an
  `Option (Fin maxProcs)`; a `ctx_t*` is the address of a block in the stack
  memory `mem`.  Device registers are written as the code writes them;
  `GICC0->IAR` holds the id of the interrupt being handled.
-/
import CcKernel.Lib.WordMem

namespace CcKernel

open WordMem

/-! ## Memory layout (`image.ld`) -/

/-- What the linker fixes: the aligned address after `.bss`, where the four
    stacks begin, and the entry points of `P1` and `P2`. -/
structure Layout where
  stackBase : Word
  mainP1 : Word
  mainP2 : Word
  loaded : 0x70010000 ≤ stackBase.toNat
  aligned : stackBase.toNat % 8 = 0
  fits : stackBase.toNat + 0x4000 < 2 ^ 32

namespace Layout
variable (L : Layout)

def tosIrq : Word := L.stackBase + 0x1000
def tosSvc : Word := L.stackBase + 0x2000
def tosP1 : Word := L.stackBase + 0x3000
def tosP2 : Word := L.stackBase + 0x4000

theorem toNat_tosIrq : L.tosIrq.toNat = L.stackBase.toNat + 0x1000 := by
  have := L.fits; unfold tosIrq; bv_omega

theorem toNat_tosSvc : L.tosSvc.toNat = L.stackBase.toNat + 0x2000 := by
  have := L.fits; unfold tosSvc; bv_omega

/-- The layout of `image.bin`. -/
def image : Layout where
  stackBase := 0x70012198
  mainP1 := 0x70010a08
  mainP2 := 0x70010a30
  loaded := by decide
  aligned := by decide
  fits := by decide

end Layout

/-! ## Data (`hilevel.h`) -/

abbrev maxProcs : ℕ := 2

instance neZero_maxProcs : NeZero maxProcs := ⟨by decide⟩

/-- The general-purpose registers r0 to r12. -/
instance neZero_registers : NeZero 13 := ⟨by decide⟩

theorem proc_cases : ∀ p : Fin maxProcs, p = 0 ∨ p = 1 := by decide

theorem self_or_next : ∀ p q : Fin maxProcs, q = p ∨ q = p + 1 := by decide

theorem next_ne : ∀ p : Fin maxProcs, p + 1 ≠ p := by decide

/-- `ctx_t`, in the order of its fields in memory. -/
@[ext] structure Ctx where
  cpsr : Word
  pc : Word
  gpr : Fin 13 → Word
  sp : Word
  lr : Word

/-- `sizeof(ctx_t)`, in words. -/
def Ctx.size : ℕ := 17

/-- `status_t` -/
inductive Status where
  | invalid | created | terminated | ready | executing | waiting
  deriving DecidableEq, Repr

/-- `pcb_t` -/
structure Pcb where
  pid : ℤ
  status : Status
  tos : Word
  ctx : Ctx

/-- The registers of `TIMER0` the kernel writes. -/
structure Sp804 where
  timer1Load : Word
  timer1Ctrl : Word
  timer1IntClr : Word

/-- The registers of `GICC0` the kernel uses. -/
structure Gicc where
  ctlr : Word
  pmr : Word
  iar : Word
  eoir : Word

/-- The registers of `GICD0` the kernel uses. -/
structure Gicd where
  ctlr : Word
  isenabler1 : Word

structure Devices where
  timer0 : Sp804
  gicc0 : Gicc
  gicd0 : Gicd
  /-- the bytes transmitted on `UART0` -/
  uart0 : List UInt8

/-- What the kernel's C code reads and writes. -/
structure Kernel where
  mem : Mem
  procTab : Fin maxProcs → Pcb
  executing : Option (Fin maxProcs)
  dev : Devices

/-- Memory and devices cleared, as an emulator starts them. -/
def Kernel.cleared : Kernel where
  mem _ := 0
  procTab _ := ⟨0, .invalid, 0, ⟨0, 0, fun _ => 0, 0, 0⟩⟩
  executing := none
  dev := ⟨⟨0, 0, 0⟩, ⟨0, 0, 0, 0⟩, ⟨0, 0⟩, []⟩

/-- `GIC_SOURCE_TIMER0` -/
def gicSourceTimer0 : Word := 36

/-! ## Contexts in memory -/

namespace Ctx

/-- The words of a context, lowest address first. -/
def words (c : Ctx) : List Word := c.cpsr :: c.pc :: (List.ofFn c.gpr ++ [c.sp, c.lr])

/-- The context of which these are the words. -/
def ofWords (ws : List Word) : Ctx where
  cpsr := ws.getD 0 0
  pc := ws.getD 1 0
  gpr i := ws.getD (2 + i) 0
  sp := ws.getD 15 0
  lr := ws.getD 16 0

/-- `memcpy(&pcb->ctx, ctx, sizeof(ctx_t))`, what it leaves in `pcb->ctx`. -/
def ofMem (m : Mem) (a : Word) : Ctx := ofWords (load m a size)

/-- `memcpy(ctx, &pcb->ctx, sizeof(ctx_t))`, what it leaves in memory. -/
def toMem (c : Ctx) (a : Word) (m : Mem) : Mem := store m a c.words

/-- `memset` to zero. -/
def zero : Ctx := ⟨0, 0, fun _ => 0, 0, 0⟩

theorem words_length (c : Ctx) : c.words.length = size := by
  simp [words, size]

theorem ofWords_words (c : Ctx) : ofWords c.words = c := by
  apply Ctx.ext <;> try rfl
  funext i
  fin_cases i <;> rfl

theorem ofMem_toMem (c : Ctx) (a : Word) (m : Mem) : ofMem (c.toMem a m) a = c := by
  have hlen : 4 * c.words.length ≤ 2 ^ 32 := by rw [words_length]; decide
  have hload : load (store m a c.words) a size = c.words := by
    rw [← words_length c]; exact load_store hlen
  rw [ofMem, toMem, hload, ofWords_words]

/-- A context block may be stored in two parts, the upper one first. -/
theorem toMem_eq (c : Ctx) (a : Word) (m : Mem) :
    store (store m (a + 8) (List.ofFn c.gpr ++ [c.sp, c.lr])) a [c.cpsr, c.pc] = c.toMem a m := by
  set upper := List.ofFn c.gpr ++ [c.sp, c.lr] with hupper
  have hlen : 4 * ([c.cpsr, c.pc].length + upper.length) ≤ 2 ^ 32 := by simp [hupper]
  have h := store_store_append (m := m) (a := a) hlen
  rw [show BitVec.ofNat 32 (4 * [c.cpsr, c.pc].length) = 8 from rfl] at h
  rw [h, toMem, words, List.cons_append, List.cons_append, List.nil_append]

end Ctx

/-! ## The functions of `hilevel.c` -/

namespace Kernel

/-- `PL011_putc(UART0, c, true)` -/
def putc (c : UInt8) (k : Kernel) : Kernel :=
  { k with dev.uart0 := k.dev.uart0 ++ [c] }

def setPcb (p : Fin maxProcs) (b : Pcb) (k : Kernel) : Kernel :=
  { k with procTab := Function.update k.procTab p b }

def setStatus (p : Fin maxProcs) (st : Status) (k : Kernel) : Kernel :=
  k.setPcb p { k.procTab p with status := st }

end Kernel

/-- `prev_pid`, `next_pid`: `'?'` for `NULL`, else `'0' + pid` as a `char`. -/
def pidChar (k : Kernel) : Option (Fin maxProcs) → UInt8
  | none => 63
  | some p => UInt8.ofInt (48 + (k.procTab p).pid)

def dispatch (ctx : Word) (prev next : Option (Fin maxProcs)) (k : Kernel) : Kernel :=
  let k := match prev with
    | some p => k.setPcb p { k.procTab p with ctx := Ctx.ofMem k.mem ctx }
    | none => k
  let k := match next with
    | some q => { k with mem := (k.procTab q).ctx.toMem ctx k.mem }
    | none => k
  let k := k.putc 91 |>.putc (pidChar k prev) |>.putc 45 |>.putc 62
    |>.putc (pidChar k next) |>.putc 93
  { k with executing := next }

/-- `none` if the code would dereference `NULL`. -/
def schedule (ctx : Word) (k : Kernel) : Option Kernel :=
  k.executing.map fun e =>
    if (k.procTab e).pid = (k.procTab 0).pid then
      dispatch ctx (some 0) (some 1) k |>.setStatus 0 .ready |>.setStatus 1 .executing
    else if (k.procTab e).pid = (k.procTab 1).pid then
      dispatch ctx (some 1) (some 0) k |>.setStatus 1 .ready |>.setStatus 0 .executing
    else k

/-- The timer and interrupt controller set-up of the reset handler. -/
def initDevices (d : Devices) : Devices :=
  { d with
    timer0.timer1Load := 0x00100000
    timer0.timer1Ctrl := 0x00000002 ||| 0x00000040 ||| 0x00000020 ||| 0x00000080
    gicc0.pmr := 0x000000F0
    gicc0.ctlr := 0x00000001
    gicd0.isenabler1 := d.gicd0.isenabler1 ||| 0x00000010
    gicd0.ctlr := 0x00000001 }

/-- The PCB the reset handler builds for a program. -/
def newPcb (pid : ℤ) (tos main : Word) : Pcb where
  pid := pid
  status := .ready
  tos := tos
  ctx := { Ctx.zero with cpsr := 0x50, pc := main, sp := tos }

/-- `hilevel_handler_rst` up to its call of `int_enable_irq`, which changes
    nothing but the CPSR.  The call of `malloc` is taken to return and to store
    to the heap only; nothing reads its result. -/
def hilevelHandlerRst (L : Layout) (ctx : Word) (k : Kernel) : Kernel :=
  let k := { k with dev := initDevices k.dev }
  let k := { k with procTab := fun p => { k.procTab p with status := .invalid } }
  let k := k.setPcb 0 (newPcb 1 L.tosP1 L.mainP1)
  let k := k.setPcb 1 (newPcb 2 L.tosP2 L.mainP2)
  dispatch ctx none (some 0) (k.putc 82)

/-- The body of the `if` of `hilevel_handler_irq`, with its test. -/
def handleTimer (id ctx : Word) (k : Kernel) : Option Kernel :=
  if id = gicSourceTimer0 then
    (schedule ctx (k.putc 84)).map fun k => { k with dev.timer0.timer1IntClr := 0x01 }
  else some k

/-- `GICC0->EOIR = id` -/
def endOfInterrupt (id : Word) (k : Kernel) : Kernel := { k with dev.gicc0.eoir := id }

def hilevelHandlerIrq (ctx : Word) (k : Kernel) : Option Kernel :=
  (handleTimer k.dev.gicc0.iar ctx k).map (endOfInterrupt k.dev.gicc0.iar)

def hilevelHandlerSvc (k : Kernel) : Kernel := k

/-! ## What the functions do -/

/-- A context switch away from process `p`, as `schedule` leaves it. -/
structure Switched (ctx : Word) (p : Fin maxProcs) (k k' : Kernel) : Prop where
  executing : k'.executing = some (p + 1)
  mem : k'.mem = (k.procTab (p + 1)).ctx.toMem ctx k.mem
  self : k'.procTab p = { k.procTab p with ctx := Ctx.ofMem k.mem ctx, status := .ready }
  other : k'.procTab (p + 1) = { k.procTab (p + 1) with status := .executing }

/-- The part of the kernel state that decides who runs, and with which context. -/
structure SameTable (k k' : Kernel) : Prop where
  executing : k'.executing = k.executing
  mem : k'.mem = k.mem
  procTab : k'.procTab = k.procTab

/-- Both branches of `schedule` switch away from the executing process. -/
theorem schedule_spec {k : Kernel} {p : Fin maxProcs} (ctx : Word) (he : k.executing = some p)
    (hpid : Function.Injective fun q => (k.procTab q).pid) :
    ∃ k', schedule ctx k = some k' ∧ Switched ctx p k k' := by
  have hne : (k.procTab 1).pid ≠ (k.procTab 0).pid := fun h => by simpa using hpid h
  unfold schedule
  rw [he, Option.map_some]
  refine ⟨_, rfl, ?_⟩
  obtain rfl | rfl := proc_cases p
  · rw [if_pos rfl]
    constructor <;> simp [dispatch, Kernel.setStatus, Kernel.setPcb, Kernel.putc]
  · rw [if_neg hne, if_pos rfl]
    constructor <;> simp [dispatch, Kernel.setStatus, Kernel.setPcb, Kernel.putc]

theorem handleTimer_timer {k : Kernel} {p : Fin maxProcs} (ctx : Word) (he : k.executing = some p)
    (hpid : Function.Injective fun q => (k.procTab q).pid) :
    ∃ k', handleTimer gicSourceTimer0 ctx k = some k' ∧ Switched ctx p k k' := by
  have hsch : ∃ k', schedule ctx (k.putc 84) = some k' ∧ Switched ctx p (k.putc 84) k' :=
    schedule_spec ctx he hpid
  obtain ⟨k', hk', hs⟩ := hsch
  refine ⟨{ k' with dev.timer0.timer1IntClr := 0x01 }, ?_, ⟨hs.executing, hs.mem, hs.self, hs.other⟩⟩
  rw [handleTimer, if_pos rfl, hk', Option.map_some]

theorem handleTimer_other {id : Word} (h : id ≠ gicSourceTimer0) (ctx : Word) (k : Kernel) :
    handleTimer id ctx k = some k := if_neg h

theorem endOfInterrupt_same (id : Word) (k : Kernel) : SameTable k (endOfInterrupt id k) :=
  ⟨rfl, rfl, rfl⟩

theorem hilevelHandlerIrq_timer {k : Kernel} {p : Fin maxProcs} (ctx : Word)
    (hid : k.dev.gicc0.iar = gicSourceTimer0) (he : k.executing = some p)
    (hpid : Function.Injective fun q => (k.procTab q).pid) :
    ∃ k', hilevelHandlerIrq ctx k = some k' ∧ Switched ctx p k k' := by
  obtain ⟨k', hk', hs⟩ := handleTimer_timer ctx he hpid
  refine ⟨endOfInterrupt gicSourceTimer0 k', ?_, ⟨hs.executing, hs.mem, hs.self, hs.other⟩⟩
  rw [hilevelHandlerIrq, hid, hk', Option.map_some]

theorem hilevelHandlerIrq_other {k : Kernel} (ctx : Word)
    (hid : k.dev.gicc0.iar ≠ gicSourceTimer0) :
    ∃ k', hilevelHandlerIrq ctx k = some k' ∧ SameTable k k' := by
  refine ⟨_, ?_, endOfInterrupt_same k.dev.gicc0.iar k⟩
  rw [hilevelHandlerIrq, handleTimer_other hid, Option.map_some]

/-- What the reset handler leaves behind for any state it starts in. -/
structure Booted (L : Layout) (ctx : Word) (k k' : Kernel) : Prop where
  executing : k'.executing = some 0
  mem : k'.mem = (newPcb 1 L.tosP1 L.mainP1).ctx.toMem ctx k.mem
  zero : k'.procTab 0 = newPcb 1 L.tosP1 L.mainP1
  one : k'.procTab 1 = newPcb 2 L.tosP2 L.mainP2

theorem hilevelHandlerRst_spec (L : Layout) (ctx : Word) (k : Kernel) :
    Booted L ctx k (hilevelHandlerRst L ctx k) := by
  constructor <;> simp [hilevelHandlerRst, dispatch, Kernel.setPcb, Kernel.putc]

end CcKernel
