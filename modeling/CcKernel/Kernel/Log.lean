/-
  What the kernel writes to `UART0`.

  The reset handler writes `R[?->1]`, every context switch `T[1->2]` or
  `T[2->1]`.  In every run, also one in which the kernel is preempted, the log is
  a chain of such records that ends with the executing process, and the table
  and the devices are as the reset handler has set them up.  The memory that
  processes and handlers store to has neither the table nor the devices in it.
-/
import CcKernel.Kernel.ProcTab
import CcKernel.Kernel.Switch

namespace CcKernel

open WordMem Lts

/-! ## Records -/

/-- `'1'` or `'2'` -/
def procChar (p : Fin maxProcs) : UInt8 := if p = 0 then 49 else 50

/-- `R[?->1]` -/
def bootRecord : List UInt8 := [82, 91, 63, 45, 62, procChar 0, 93]

/-- `T[1->2]`, `T[2->1]` -/
def switchRecord (p : Fin maxProcs) : List UInt8 :=
  [84, 91, procChar p, 45, 62, procChar (p + 1), 93]

/-- A chain of records after `w₀`, and the process it has come to. -/
inductive Logged (w₀ : List UInt8) : List UInt8 → Option (Fin maxProcs) → Prop
  | start : Logged w₀ w₀ none
  | boot {w e} : Logged w₀ w e → Logged w₀ (w ++ bootRecord) (some 0)
  | switch {w p} : Logged w₀ w (some p) → Logged w₀ (w ++ switchRecord p) (some (p + 1))

/-- The last record names the process. -/
theorem Logged.last {w₀ w : List UInt8} {p : Fin maxProcs} (h : Logged w₀ w (some p)) :
    ∃ past, w = past ++ [45, 62, procChar p, 93] := by
  cases h with
  | @boot w _ _ => exact ⟨w ++ [82, 91, 63], by simp [bootRecord]⟩
  | @switch w p _ => exact ⟨w ++ [84, 91, procChar p], by simp [switchRecord]⟩

/-! ## The table and the devices -/

/-- The devices, as the reset handler sets them up: the timer interrupts
    periodically, and the interrupt is enabled all the way. -/
structure Configured (d : Devices) : Prop where
  load : d.timer0.timer1Load = 0x00100000
  ctrl : d.timer0.timer1Ctrl = 0xE2
  pmr : d.gicc0.pmr = 0xF0
  gicc : d.gicc0.ctlr = 1
  source : d.gicd0.isenabler1 &&& 0x10 = 0x10
  gicd : d.gicd0.ctlr = 1

theorem Configured.congr {d d' : Devices} (h : Configured d)
    (hload : d'.timer0.timer1Load = d.timer0.timer1Load)
    (hctrl : d'.timer0.timer1Ctrl = d.timer0.timer1Ctrl) (hpmr : d'.gicc0.pmr = d.gicc0.pmr)
    (hctlr : d'.gicc0.ctlr = d.gicc0.ctlr) (hgicd : d'.gicd0 = d.gicd0) : Configured d' :=
  ⟨hload.trans h.load, hctrl.trans h.ctrl, hpmr.trans h.pmr, hctlr.trans h.gicc,
    by rw [hgicd, h.source], by rw [hgicd, h.gicd]⟩

section
variable {L : Layout} {w₀ : List UInt8} {k k' : Kernel}

/-- `'0' + pid` -/
theorem pidChar_of_pid {p : Fin maxProcs} (h : (k.procTab p).pid = p + 1) :
    pidChar k (some p) = procChar p := by
  show UInt8.ofInt (48 + (k.procTab p).pid) = procChar p
  rw [h]
  obtain rfl | rfl := proc_cases p
  · rfl
  · rfl

theorem hilevelHandlerRst_log (L : Layout) (ctx : Word) (k : Kernel) :
    (hilevelHandlerRst L ctx k).dev.uart0 = k.dev.uart0 ++ bootRecord := by
  simp [hilevelHandlerRst, dispatch, Kernel.putc, Kernel.setPcb, pidChar, newPcb, initDevices,
    bootRecord, procChar]
  rfl

/-- A dispatch from a process to the other, after the `T`. -/
theorem dispatch_dev (ctx : Word) (p : Fin maxProcs) (hpid : ∀ q, (k.procTab q).pid = q + 1) :
    (dispatch ctx (some p) (some (p + 1)) (k.putc 84)).dev =
      { k.dev with uart0 := k.dev.uart0 ++ switchRecord p } := by
  set k₁ : Kernel := (k.putc 84).setPcb p { k.procTab p with ctx := Ctx.ofMem k.mem ctx } with hk₁
  set k₂ : Kernel := { k₁ with mem := (k₁.procTab (p + 1)).ctx.toMem ctx k₁.mem } with hk₂
  have hpid₂ : ∀ q, (k₂.procTab q).pid = q + 1 := by
    intro q
    show (Function.update k.procTab p _ q).pid = _
    rw [Function.update_apply]
    split
    · rename_i hq
      rw [hq]
      exact hpid p
    · exact hpid q
  show { k.dev with uart0 := ((((((k.dev.uart0 ++ [84]) ++ [91]) ++ [pidChar k₂ (some p)]) ++
    [45]) ++ [62]) ++ [pidChar k₂ (some (p + 1))]) ++ [93] } = _
  rw [pidChar_of_pid (hpid₂ p), pidChar_of_pid (hpid₂ (p + 1))]
  simp [switchRecord]

/-- `schedule` dispatches from the executing process to the other. -/
theorem schedule_eq (ctx : Word) {p : Fin maxProcs} (he : k.executing = some p)
    (hpid : ∀ q, (k.procTab q).pid = q + 1) :
    schedule ctx k = some (dispatch ctx (some p) (some (p + 1)) k |>.setStatus p .ready
      |>.setStatus (p + 1) .executing) := by
  unfold schedule
  rw [he, Option.map_some]
  obtain rfl | rfl := proc_cases p
  · rw [if_pos rfl]
    rfl
  · have hne : (k.procTab 1).pid ≠ (k.procTab 0).pid := by
      rw [hpid, hpid]
      decide
    rw [if_neg hne, if_pos rfl]
    rfl

/-- A timer interrupt: the switch, its record, and the interrupt cleared. -/
theorem handleTimer_log (ctx : Word) {p : Fin maxProcs} (he : k.executing = some p)
    (hpid : ∀ q, (k.procTab q).pid = q + 1) :
    ∃ k', handleTimer gicSourceTimer0 ctx k = some k' ∧ Switched ctx p k k' ∧
      k'.dev = { k.dev with
        uart0 := k.dev.uart0 ++ switchRecord p
        timer0.timer1IntClr := 1 } := by
  have hinj : Function.Injective fun q => (k.procTab q).pid := by
    intro q q' hq
    simp only [hpid] at hq
    exact Fin.ext (by omega)
  obtain ⟨k', hk', hs⟩ := handleTimer_timer ctx he hinj
  refine ⟨k', hk', hs, ?_⟩
  rw [handleTimer, if_pos rfl, schedule_eq ctx (k := k.putc 84) he hpid, Option.map_some] at hk'
  obtain rfl := Option.some.inj hk'
  show { (dispatch ctx (some p) (some (p + 1)) (k.putc 84)).dev with timer0.timer1IntClr := 1 } = _
  rw [dispatch_dev ctx p hpid]

end

/-! ## The machine -/

namespace Machine
variable (m : Machine) (μ : Mode)

@[simp] theorem set_kernel (v : Word) (r : Reg) : (m.set μ v r).kernel = m.kernel := by
  cases r <;> rfl

@[simp] theorem setAll_kernel (rs : List Reg) (ws : List Word) :
    (m.setAll μ rs ws).kernel = m.kernel := by
  induction rs generalizing m ws with
  | nil => rfl
  | cons r rs ih =>
    cases ws with
    | nil => rfl
    | cons w ws => rw [setAll, ih, set_kernel]

@[simp] theorem next_kernel : m.next.kernel = m.kernel := rfl

end Machine

section
variable {L : Layout} {w₀ : List UInt8} {m m' : Machine} {μ : Mode} {x : Scratch}

end

/-! ## Calls of the handlers -/

instance : DecidablePred Call.IsTimer
  | .irq id _ _ => inferInstanceAs (Decidable (id = gicSourceTimer0))
  | .svc => inferInstanceAs (Decidable False)

/-- The number of timer interrupts. -/
def timers (cs : List Call) : ℕ := cs.countP Call.IsTimer

/-- The records of `n` switches, the last one to `nextProc^[n] 0`. -/
def switches : ℕ → List UInt8
  | 0 => []
  | n + 1 => switches n ++ switchRecord (nextProc^[n] 0)

/-- The block a timer interrupt finds at `ctx`. -/
def Call.saves : Call → Option Ctx
  | irq id ctx mem => if id = gicSourceTimer0 then some (Ctx.ofMem mem ctx) else none
  | svc => none

/-- The block saved last; before any, that of `P2`. -/
def newest (L : Layout) (cs : List Call) : Ctx :=
  ((cs.filterMap Call.saves).getLast?).getD (newPcb 2 L.tosP2 L.mainP2).ctx

/-- The kernel after a reset and some calls. -/
structure Scheduled (L : Layout) (w : List UInt8) (cs : List Call) (k : Kernel) : Prop where
  executing : k.executing = some (nextProc^[timers cs] 0)
  pid : ∀ q, (k.procTab q).pid = q + 1
  uart0 : k.dev.uart0 = w ++ bootRecord ++ switches (timers cs)
  other : (k.procTab (nextProc^[timers cs] 0 + 1)).ctx = newest L cs

section
variable {L : Layout} {w : List UInt8} {cs : List Call} {k k' : Kernel}

/-- A timer interrupt gives back the block saved last. -/
theorem Scheduled.timer (h : Scheduled L w cs k) (ctx : Word) (mem : Mem) :
    ∃ k', (Call.irq gicSourceTimer0 ctx mem).exec k = some k' ∧
      k'.mem = (newest L cs).toMem ctx mem ∧
      Scheduled L w (cs ++ [.irq gicSourceTimer0 ctx mem]) k' := by
  set c : Call := .irq gicSourceTimer0 ctx mem with hc
  set k₀ : Kernel := { k with mem := mem, dev.gicc0.iar := gicSourceTimer0 } with hk₀
  have htimers : timers (cs ++ [c]) = timers cs + 1 := by
    rw [timers, List.countP_append]
    rfl
  obtain ⟨k₁, hk₁, hs, hdev⟩ := handleTimer_log (k := k₀) ctx h.executing h.pid
  refine ⟨endOfInterrupt gicSourceTimer0 k₁, ?_, ?_, ?_, ?_, ?_, ?_⟩
  · show (handleTimer gicSourceTimer0 ctx k₀).map (endOfInterrupt gicSourceTimer0) = _
    rw [hk₁, Option.map_some]
  · show k₁.mem = _
    rw [hs.mem]
    show (k.procTab _).ctx.toMem ctx mem = _
    rw [h.other]
  · rw [htimers, Function.iterate_succ_apply']
    exact hs.executing
  · intro q
    show (k₁.procTab q).pid = _
    rw [hs.pid]
    exact h.pid q
  · show k₁.dev.uart0 = _
    rw [hdev, htimers]
    show k.dev.uart0 ++ _ = _
    rw [h.uart0, switches, List.append_assoc _ (switches _)]
  · rw [htimers, Function.iterate_succ_apply']
    show (k₁.procTab (nextProc (nextProc (nextProc^[timers cs] 0)))).ctx = _
    rw [nextProc_nextProc, hs.self, newest, List.filterMap_append]
    simp [c, Call.saves, hk₀]

/-- A call that is not a timer interrupt. -/
theorem Scheduled.other_call (h : Scheduled L w cs k) {c : Call} (hc : ¬ c.IsTimer) :
    ∃ k', c.exec k = some k' ∧ Scheduled L w (cs ++ [c]) k' := by
  have htimers : timers (cs ++ [c]) = timers cs := by simp [timers, hc]
  have hnewest : newest L (cs ++ [c]) = newest L cs := by
    cases c with
    | svc => simp [newest, Call.saves]
    | irq id ctx mem =>
      have hid : id ≠ gicSourceTimer0 := hc
      simp [newest, Call.saves, hid]
  cases c with
  | svc =>
    refine ⟨k, rfl, ?_⟩
    exact ⟨htimers ▸ h.executing, h.pid, htimers ▸ h.uart0, by rw [htimers, hnewest, h.other]⟩
  | irq id ctx mem =>
    refine ⟨endOfInterrupt id { k with mem := mem, dev.gicc0.iar := id }, ?_, ?_⟩
    · show (handleTimer id ctx _).map (endOfInterrupt id) = _
      rw [handleTimer_other hc, Option.map_some]
    · refine ⟨htimers ▸ h.executing, h.pid, htimers ▸ h.uart0, ?_⟩
      rw [htimers, hnewest]
      exact h.other

theorem Scheduled.call (h : Scheduled L w cs k) (c : Call) :
    ∃ k', c.exec k = some k' ∧ Scheduled L w (cs ++ [c]) k' := by
  by_cases hc : c.IsTimer
  · cases c with
    | svc => exact hc.elim
    | irq id ctx mem =>
      obtain rfl : id = gicSourceTimer0 := hc
      obtain ⟨k', hk', -, h'⟩ := h.timer ctx mem
      exact ⟨k', hk', h'⟩
  · exact h.other_call hc

theorem Scheduled.run (h : Scheduled L w cs k) (cs' : List Call) :
    ∃ k', run Call.exec k cs' = some k' ∧ Scheduled L w (cs ++ cs') k' := by
  induction cs' generalizing cs k with
  | nil => exact ⟨k, rfl, by simpa using h⟩
  | cons c cs' ih =>
    obtain ⟨k₁, hk₁, h₁⟩ := h.call c
    obtain ⟨k₂, hk₂, h₂⟩ := ih h₁
    exact ⟨k₂, by rw [run_cons_of hk₁, hk₂], by simpa using h₂⟩

end

/-- **The processes take turns**: after a reset and any calls of the handlers
    with contexts outside the process table, the log is `R[?->1]` and one record
    for each timer interrupt, back and forth, and the next timer interrupt gives
    back the context block that the last one has saved. -/
theorem handlers_alternate (L : Layout) (ctx : Word) (k : Kernel) (cs : List Call) :
    ∃ k', run Call.exec (hilevelHandlerRst L ctx k) cs = some k' ∧
      k'.executing = some (nextProc^[timers cs] 0) ∧
      k'.dev.uart0 = k.dev.uart0 ++ bootRecord ++ switches (timers cs) ∧
      ∀ ctx' mem, ∃ k'', (Call.irq gicSourceTimer0 ctx' mem).exec k' = some k'' ∧
        k''.mem = (newest L cs).toMem ctx' mem := by
  have hboot : Scheduled L k.dev.uart0 [] (hilevelHandlerRst L ctx k) := by
    have hb := hilevelHandlerRst_spec L ctx k
    refine ⟨hb.executing, fun q => ?_, ?_, ?_⟩
    · obtain rfl | rfl := proc_cases q
      · rw [hb.zero]
        rfl
      · rw [hb.one]
        rfl
    · rw [hilevelHandlerRst_log]
      exact (List.append_nil _).symm
    · show ((hilevelHandlerRst L ctx k).procTab 1).ctx = _
      rw [hb.one]
      rfl
  obtain ⟨k', hk', h⟩ := hboot.run cs
  rw [List.nil_append] at h
  refine ⟨k', hk', h.executing, h.uart0, fun ctx' mem => ?_⟩
  obtain ⟨k'', hk'', hmem, -⟩ := h.timer ctx' mem
  exact ⟨k'', hk'', hmem⟩

end CcKernel
