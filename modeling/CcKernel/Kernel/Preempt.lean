/-
  When the kernel can be interrupted.

  `int_enable_irq` clears the I bit of the CPSR it is called with, and the reset
  handler calls it in SVC mode: from there to the end of the reset path an IRQ
  is taken inside the kernel.  Every other privileged boundary is masked, so an
  IRQ that is not taken in that window comes from a process.
-/
import CcKernel.Kernel.Switch

namespace CcKernel

open WordMem Lts Multiplex

/-! ## What an IRQ exception interrupts -/

/-- What a label is to the processes. -/
def Label.op : Label → Op Ctx
  | .user u => .act (Ctx.user u)
  | .irq id => if id = gicSourceTimer0 then .switch else .stay
  | .svc | .exec _ => .stay

/-- An interrupt of `TIMER0`. -/
def Label.IsTimer : Label → Prop
  | .irq id => id = gicSourceTimer0
  | _ => False

instance : DecidablePred Label.IsTimer
  | .irq id => inferInstanceAs (Decidable (id = gicSourceTimer0))
  | .user _ => isFalse id
  | .svc => isFalse id
  | .exec _ => isFalse id

theorem Label.isSwitch_op (l : Label) : l.op.IsSwitch ↔ l.IsTimer := by
  cases l with
  | irq id => exact isSwitch_timer id
  | _ => exact Iff.rfl

/-- The processes after a run from reset, each on its own: a user step is one of
    the process whose turn it is, and the turn changes with the timer. -/
def processes (L : Layout) (ls : List Label) : State (Fin maxProcs) Ctx :=
  ls.foldl (fun a l => a.step nextProc l.op) ⟨initialCtx L, 0⟩

theorem processes_cur (L : Layout) (ls : List Label) :
    ((processes L ls).cur : ℕ) = ls.countP (fun l => l.IsTimer) % 2 := by
  have hcount : (ls.map Label.op).countP (fun o => o.IsSwitch) = ls.countP (fun l => l.IsTimer) := by
    rw [List.countP_map]
    exact List.countP_congr fun l _ => by simp [l.isSwitch_op]
  have hfold : processes L ls = (ls.map Label.op).foldl (State.step nextProc) ⟨initialCtx L, 0⟩ := by
    rw [List.foldl_map]
    rfl
  rw [hfold, cur_foldl, hcount]
  exact nextProc_iterate _

/-- What an IRQ exception should find after the labels `pre`: the SPSR of a
    process, and, when `hilevel_handler_irq` is called, the context of the
    process whose turn it is at the address in r0. -/
structure IrqFromUser (im : Image) (pre : List Label) (t t' : Machine) : Prop where
  spsr : Mode.ofPsr (t'.spsr .irq) = some .usr
  saved : ∃ p : Fin maxProcs, (p : ℕ) = pre.countP (fun l => l.IsTimer) % 2 ∧
    t.kernel.executing = some p ∧ t.userCtx.visible = (processes im.toLayout pre).ctx p ∧
    ∀ xs : Fin 7 → Scratch, ∃ u, run im.step t' (execs xs) = some u ∧ u.pc = im.hilevelHandlerIrq ∧
      u.kernel.executing = some p ∧ Ctx.ofMem u.mem (u.gpr 0) = t.userCtx

/-- Every IRQ exception of the run finds it. -/
def IrqsFromUser (im : Image) (m : Machine) (ls : List Label) : Prop :=
  ∀ pre id post t t', ls = pre ++ .irq id :: post → run im.step m pre = some t →
    im.step t (.irq id) = some t' → IrqFromUser im pre t t'

/-- The kernel is not preempted on a run. -/
structure NeverPreempted (im : Image) (m : Machine) (ls : List Label) : Prop where
  boundary : ∀ t, Visits im.step m ls t → ¬ t.Masked → t.mode = some .usr
  entry : IrqsFromUser im m ls
  stored : ∀ t, Visits im.step m ls t → StoredOk t.kernel

/-- An IRQ taken after `int_enable_irq` but before the reset path has left the
    kernel. -/
def TakenInWindow (S : Symbols) (t : Machine) (l : Label) : Prop :=
  (∃ id, l = .irq id) ∧ t.mode ≠ some .usr ∧ t.pc ∈ S.window

/-! ## The processes along a run -/

/-- The run is somewhere between two boundaries at which a process runs, and the
    next one looks like `a`. -/
def OnTrack (im : Image) (m : Machine) (a : State (Fin maxProcs) Ctx) : Prop :=
  ∃ n, im.Path (Busy im.toSymbols) (fun v => Refines im.toLayout v a) n m

namespace OnTrack
variable {im : Image} {m : Machine} {a : State (Fin maxProcs) Ctx}

theorem storedOk (h : OnTrack im m a) : StoredOk m.kernel := by
  obtain ⟨n, hn⟩ := h
  rcases n with _ | n
  · exact fun _ => AtUser.stored (Refines.atUser hn)
  · exact hn.1.stored

theorem ofReset (h : m.Reset im.toSymbols) : OnTrack im m ⟨initialCtx im.toLayout, 0⟩ :=
  ⟨69, (Image.path_enter h).mono_right fun _ he => he.refines⟩

/-- In USR mode it is at such a boundary. -/
theorem refines (h : OnTrack im m a) (hu : m.mode = some .usr) : Refines im.toLayout m a := by
  obtain ⟨n, hn⟩ := h
  rcases n with _ | n
  · exact hn
  · obtain ⟨μ, hp, hμ⟩ := hn.1.mode
    exact absurd (Option.some.inj (hμ.symm.trans hu)) hp

/-- An IRQ that is not taken in the window is taken from a process. -/
theorem refines_of_irq (h : OnTrack im m a) {id : Word}
    (hw : ¬ TakenInWindow im.toSymbols m (.irq id)) (hm : ¬ m.Masked) : Refines im.toLayout m a := by
  by_cases hu : m.mode = some .usr
  · exact h.refines hu
  · obtain ⟨n, hn⟩ := h
    rcases n with _ | n
    · exact absurd (Refines.atUser hn).psr.mode hu
    · exact absurd ⟨⟨id, rfl⟩, hu, hn.1.masked.resolve_left hm⟩ hw

/-- **The step lemma.** -/
theorem step {m' : Machine} {l : Label} (hw : ¬ TakenInWindow im.toSymbols m l)
    (h : OnTrack im m a) (hs : im.step m l = some m') :
    OnTrack im m' (a.step nextProc l.op) := by
  rcases Image.step_cases hs with
    ⟨hu, u, rfl, rfl⟩ | ⟨hu, rfl, rfl⟩ | ⟨hm, id, rfl, rfl⟩ | ⟨hu, x, rfl⟩
  · exact ⟨0, (h.refines hu).user u⟩
  · have hr := h.refines hu
    exact ⟨_, Goes.mono (fun _ hb => hb.busy) (fun _ ht => hr.trapped ht)
      (Image.path_svc hr.atUser)⟩
  · have hr := h.refines_of_irq hw hm
    refine ⟨_, Goes.mono (fun _ hb => hb.busy) (fun v hv => ?_)
      (Image.path_irq hr.atUser hr.executing id)⟩
    exact hr.interrupted hv.1 hv.2.1 hv.2.2.1
  · obtain ⟨n, hn⟩ := h
    rcases n with _ | n
    · exact absurd (Refines.atUser hn).psr.mode hu
    · obtain ⟨m'', hs', h'⟩ := hn.2 (.exec x) trivial
      obtain rfl : m' = m'' := Option.some.inj (hs.symm.trans hs')
      exact ⟨n, h'⟩

end OnTrack

theorem spsr_takeIrq (S : Symbols) (id : Word) (m : Machine) :
    (m.takeIrq S id).spsr .irq = m.cpsr := by
  simp [Machine.takeIrq, Machine.exception]

/-- An IRQ taken from a process finds what it should. -/
theorem Refines.irqFromUser {im : Image} {pre : List Label} {t : Machine}
    (h : Refines im.toLayout t (processes im.toLayout pre)) (id : Word) :
    IrqFromUser im pre t (t.takeIrq im.toSymbols id) := by
  refine ⟨by rw [spsr_takeIrq]; exact h.atUser.psr.mode, ?_⟩
  refine ⟨_, processes_cur im.toLayout pre, h.executing, h.running, ?_⟩
  intro xs
  obtain ⟨u, hr, rfl⟩ := run_execs (Image.path_takeIrq h.atUser id) xs
  refine ⟨_, hr, rfl, h.executing, ?_⟩
  rw [irqCall_r0, irqCall_block, Image.saved_takeIrq]

/-! ## Runs -/

section Runs

variable {im : Image} {m m' : Machine} {ls : List Label}

theorem Guarded.isExec {t t' : Machine} {l : Label} (h : Guarded t) (hs : im.step t l = some t') :
    l.IsExec := Image.isExec_of_masked h.mode h.masked hs

/-- After the `msr` the core is neither masked nor in USR mode. -/
theorem visits_unmasked (h : m.Reset im.toSymbols) (hr : run im.step m ls = some m')
    (hlen : 62 ≤ ls.length) : ∃ t, Visits im.step m ls t ∧ ¬ t.Masked ∧ t.mode = some .svc := by
  have hpath : im.Path Guarded (AtUnmasked im.toSymbols) 62 m :=
    Goes.seq ((Image.path_masked h).mono_left fun _ ht => ht.guarded) fun t ht =>
      Image.path_unmasked ht
  obtain ⟨t, ht, hrt, -⟩ := hpath.reaches (fun _ _ _ hg => hg.isExec) hr hlen
  refine ⟨t, ?_, ht.unmasked, ht.mode⟩
  rw [← List.take_append_drop 62 ls]
  exact visits_of_run hrt _

theorem masked_of_visits (h : m.Reset im.toSymbols) (hlen : ls.length ≤ 61) {t : Machine}
    (hv : Visits im.step m ls t) : t.Masked := by
  rcases (Image.path_masked h).visits (fun _ _ _ hg => hg.guarded.isExec) hlen hv with ht | ht
  · exact ht.guarded.masked
  · exact ht.masked

/-- A run that does not execute the `msr` ends before it. -/
theorem length_of_steps (h : m.Reset im.toSymbols) (hr : run im.step m ls = some m') :
    (AllSteps im.step m ls fun t l => ¬ ExecutesAt im.unmask t l) ↔ ls.length ≤ 61 := by
  refine (Image.path_masked h).avoids_iff (fun _ _ _ hg => hg.guarded.isExec)
    (fun _ _ ht => ht.not_executesAt) ?_ hr
  intro t l t' ht hs
  exact ⟨Image.isExec_of_svc ht.mode ht.masked hs, ht.pc⟩

theorem onTrack_run (h : m.Reset im.toSymbols) {pre : List Label} {t : Machine}
    (hr : run im.step m pre = some t)
    (hw : AllSteps im.step m pre fun t l => ¬ TakenInWindow im.toSymbols t l) :
    OnTrack im t (processes im.toLayout pre) := by
  refine run_shadow (R := OnTrack im) ?_ hr hw (OnTrack.ofReset h)
  intro _ _ _ _ hl ho hs
  exact ho.step hl hs

/-- In a run that takes no IRQ in the window every IRQ comes from a process, and
    the table holds only contexts of processes. -/
theorem irqsFromUser_of_steps (h : m.Reset im.toSymbols)
    (hw : AllSteps im.step m ls fun t l => ¬ TakenInWindow im.toSymbols t l) :
    IrqsFromUser im m ls ∧ ∀ t, Visits im.step m ls t → StoredOk t.kernel := by
  constructor
  · rintro pre id post t t' rfl hpre hs
    have hon := onTrack_run h hpre hw.left
    have htake : ¬ TakenInWindow im.toSymbols t (.irq id) :=
      hw _ _ _ (takes_iff.2 ⟨pre, post, rfl, hpre, hs⟩)
    simp only [Image.step, Option.ite_none_left_eq_some, Option.some.injEq] at hs
    obtain ⟨hm, rfl⟩ := hs
    exact (hon.refines_of_irq htake hm).irqFromUser id
  · intro t hv
    obtain ⟨pre, post, rfl, hpre⟩ := visits_iff.1 hv
    exact (onTrack_run h hpre hw.left).storedOk

/-- **When the kernel is not preempted**: exactly in the runs that do not execute
    the `msr` of `int_enable_irq`.  The other runs still meet the rest of the
    property exactly if no IRQ is taken in the window. -/
theorem neverPreempted_iff (im : Image) (m m' : Machine) (ls : List Label)
    (h : m.Reset im.toSymbols) (hr : run im.step m ls = some m') :
    (NeverPreempted im m ls ↔
      AllSteps im.step m ls fun t l => ¬ ExecutesAt im.unmask t l) ∧
    ((IrqsFromUser im m ls ∧ ∀ t, Visits im.step m ls t → StoredOk t.kernel) ↔
      AllSteps im.step m ls fun t l => ¬ TakenInWindow im.toSymbols t l) := by
  rw [length_of_steps h hr]
  refine ⟨⟨?_, ?_⟩, ?_, irqsFromUser_of_steps h⟩
  · intro hn
    by_contra hlen
    obtain ⟨t, hv, hm, hμ⟩ := visits_unmasked h hr (by omega)
    have := hn.boundary t hv hm
    rw [hμ] at this
    cases this
  · intro hlen
    have hmask : ∀ t, Visits im.step m ls t → t.Masked := fun t hv => masked_of_visits h hlen hv
    have hw : AllSteps im.step m ls fun t l => ¬ TakenInWindow im.toSymbols t l := by
      rintro t l t' ht ⟨⟨id, rfl⟩, -, -⟩
      have hs := ht.step_eq
      simp only [Image.step, if_pos (hmask t ht.visits)] at hs
      cases hs
    obtain ⟨he, hst⟩ := irqsFromUser_of_steps h hw
    exact ⟨fun t hv hm => absurd (hmask t hv) hm, he, hst⟩
  · rintro ⟨he, -⟩ t l t' ht ⟨⟨id, rfl⟩, hu, -⟩
    obtain ⟨pre, post, hls, hpre, hs⟩ := takes_iff.1 ht
    have hspsr := (he pre id post t t' hls hpre hs).spsr
    simp only [Image.step, Option.ite_none_left_eq_some, Option.some.injEq] at hs
    rw [← hs.2, spsr_takeIrq] at hspsr
    exact hu hspsr

/-! ## The runs that switch contexts -/

theorem notTaken_execs {n : ℕ} (xs : Fin n → Scratch) (t : Machine) :
    AllSteps im.step t (execs xs) fun t l => ¬ TakenInWindow im.toSymbols t l := by
  rintro u l u' htake ⟨⟨id, rfl⟩, -⟩
  obtain ⟨pre, post, hls, -⟩ := takes_iff.1 htake
  have hmem : Label.irq id ∈ execs xs := by
    rw [hls]
    simp
  obtain ⟨i, hi⟩ := List.mem_ofFn.1 hmem
  cases hi

/-- Events start where a process runs. -/
theorem Refines.notTaken {t : Machine} {a : State (Fin maxProcs) Ctx}
    (h : Refines im.toLayout t a) (es : List Event) :
    AllSteps im.step t (labels es) fun t l => ¬ TakenInWindow im.toSymbols t l := by
  induction es generalizing t a with
  | nil => exact allSteps_nil _ _
  | cons e es ih =>
    obtain ⟨t', hr, h'⟩ := refines_step h e
    rw [labels, List.flatMap_cons, allSteps_append hr]
    refine ⟨?_, ih h'⟩
    have hmode := h.atUser.psr.mode
    cases e with
    | user u =>
      rw [Event.labels, allSteps_cons (Image.step_user hmode u)]
      exact ⟨fun hw => hw.2.1 hmode, allSteps_nil _ _⟩
    | svc xs =>
      rw [Event.labels, allSteps_cons (Image.step_svc hmode)]
      exact ⟨fun hw => hw.2.1 hmode, notTaken_execs xs _⟩
    | irq id xs =>
      rw [Event.labels, allSteps_cons (Image.step_irq h.atUser.psr.unmasked id)]
      exact ⟨fun hw => hw.2.1 hmode, notTaken_execs xs _⟩

/-- The reset path and events after it take no IRQ in the window. -/
theorem notTaken_events (h : m.Reset im.toSymbols) (xs : Fin 69 → Scratch) (es : List Event) :
    AllSteps im.step m (execs xs ++ labels es) fun t l => ¬ TakenInWindow im.toSymbols t l := by
  obtain ⟨v, hr, hv⟩ := run_execs (Image.path_enter h) xs
  rw [allSteps_append hr]
  exact ⟨notTaken_execs xs m, hv.refines.notTaken es⟩

end Runs

/-- A step of `P1` that sets its registers to 7. -/
def sevens : UserStep := ⟨fun _ => 7, Layout.image.tosP1, 0, Layout.image.mainP1, 0, fun _ => 0⟩

/-- The reset path, that step and a timer interrupt. -/
def firstTimer : List Label :=
  execs (fun _ : Fin 69 => .zero) ++ labels [.user sevens, .irq gicSourceTimer0 fun _ => .zero]

/-- The kernel of `image.bin` as far as the `msr`, and the first interrupt of
    `P1`. -/
theorem neverPreempted_image :
    NeverPreempted Image.bin (.powerOn .image) (execs fun _ : Fin 61 => .zero) ∧
    ∃ pre post t t', firstTimer = pre ++ .irq gicSourceTimer0 :: post ∧
      run Image.bin.step (.powerOn .image) pre = some t ∧
      Image.bin.step t (.irq gicSourceTimer0) = some t' ∧ IrqFromUser Image.bin pre t t' := by
  have hreset : (Machine.powerOn .image).Reset Image.bin.toSymbols := Machine.reset_powerOn _
  constructor
  · obtain ⟨m', hr, -⟩ := run_execs (Image.path_masked hreset) fun _ => .zero
    have hlen := (length_of_steps hreset hr).2 (by simp [execs])
    exact (neverPreempted_iff _ _ m' _ hreset hr).1.2 hlen
  · obtain ⟨v, hr, hv⟩ := run_execs (Image.path_enter hreset) fun _ => .zero
    obtain ⟨t, ht, href⟩ := refines_run hv.refines [.user sevens]
    obtain ⟨m', hm', -⟩ :=
      refines_run hv.refines [.user sevens, .irq gicSourceTimer0 fun _ => .zero]
    have hs : Image.bin.step t (.irq gicSourceTimer0) = some _ :=
      Image.step_irq href.atUser.psr.unmasked gicSourceTimer0
    have hpre : run Image.bin.step (.powerOn .image)
        (execs (fun _ : Fin 69 => .zero) ++ labels [.user sevens]) = some t := by
      rw [run_append_of hr, ht]
    have hrun : run Image.bin.step (.powerOn .image) firstTimer = some m' := by
      rw [firstTimer, run_append_of hr, hm']
    have hirqs := ((neverPreempted_iff _ _ m' _ hreset hrun).2.2 (notTaken_events hreset _ _)).1
    exact ⟨_, _, t, _, rfl, hpre, hs, hirqs _ _ _ _ _ rfl hpre hs⟩

/-- The reset path as far as the `msr`, a timer interrupt after it, and the
    handler of the interrupt. -/
def earlyIrq : List Label :=
  execs (fun _ : Fin 62 => .zero) ++ .irq gicSourceTimer0 :: execs (fun _ : Fin 17 => .zero)

/-- The interrupt saves the kernel, in SVC mode inside `int_enable_irq`, as the
    context of `P1`. -/
theorem not_neverPreempted_earlyIrq :
    (run Image.bin.step (.powerOn .image) earlyIrq).map (fun t =>
        (t.kernel.executing, (t.kernel.procTab 0).ctx.cpsr &&& 0x1F, (t.kernel.procTab 0).ctx.pc)) =
      some (some 1, 0x13, Symbols.image.intEnableIrq + 12) ∧
    ¬ NeverPreempted Image.bin (.powerOn .image) earlyIrq := by
  have hrun : (run Image.bin.step (.powerOn .image) earlyIrq).map (fun t =>
        (t.kernel.executing, (t.kernel.procTab 0).ctx.cpsr &&& 0x1F, (t.kernel.procTab 0).ctx.pc)) =
      some (some 1, 0x13, Symbols.image.intEnableIrq + 12) := by decide +kernel
  refine ⟨hrun, ?_⟩
  intro hn
  obtain ⟨t, hr, ht⟩ := Option.map_eq_some_iff.1 hrun
  simp only [Prod.mk.injEq] at ht
  have hst := hn.stored t (by simpa using visits_of_run hr []) (by rw [ht.1]; rfl) 0
  have hsvc : (t.kernel.procTab 0).ctx.cpsr &&& 0x1F = 0x10 := and_of_and hst (by decide)
  rw [ht.2.1] at hsvc
  exact absurd hsvc (by decide)

end CcKernel
