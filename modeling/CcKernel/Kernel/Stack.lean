/-
  The stacks of the handlers.

  `image.ld` reserves 0x1000 bytes below each of `tos_irq`, `tos_svc`, `tos_P1`
  and `tos_P2`, without gaps.  `lolevel_handler_rst` means to make room for a
  context below `tos_svc` but adds 68 where the IRQ handler subtracts; the
  context lies above `tos_svc`, in the stack of `P1`, and so does everything the
  SVC handler stores from then on.  Until that `add` the stacks are in order.
-/
import CcKernel.Kernel.Switch

namespace CcKernel

open WordMem Lts

namespace Layout

/-- A stack pointer inside the stack with top `top`. -/
def SpIn (top sp : Word) : Prop := top.toNat < sp.toNat + 0x1000 ∧ sp.toNat ≤ top.toNat

/-- A word inside the stack with top `top`. -/
def WordIn (top a : Word) : Prop := top.toNat ≤ a.toNat + 0x1000 ∧ a.toNat + 4 ≤ top.toNat

end Layout

/-- The addresses to which an instruction of a low-level handler stores. -/
def Instr.stores (μ : Mode) (m : Machine) : Instr → List Word
  | .stmdb rn regs => addrs (m.get μ rn - BitVec.ofNat 32 (4 * regs.length)) regs.length
  | .stmiaUsr rn => addrs (m.get μ rn) 15
  | _ => []

/-- Privileged mode `μ` executes `i`. -/
structure Executes (im : Image) (t : Machine) (l : Label) (μ : Mode) (i : Instr) : Prop where
  exec : l.IsExec
  mode : t.mode = some μ
  privileged : μ ≠ .usr
  fetch : im.fetch t.pc = some i

/-- The discipline, of one step. -/
structure StackStep (im : Image) (t : Machine) (l : Label) (t' : Machine) : Prop where
  /-- at rest both stack pointers are inside their stacks -/
  rest : t'.mode = some .usr → ∀ μ ≠ Mode.usr, Layout.SpIn (im.toLayout.tos μ) (t'.sp μ)
  /-- a handler leaves its stack empty -/
  left : ∀ μ ≠ Mode.usr, t.mode = some μ → t'.mode = some .usr → t'.sp μ = im.toLayout.tos μ
  /-- and stores inside it -/
  stores : ∀ μ i, Executes im t l μ i → ∀ a ∈ i.stores μ t, Layout.WordIn (im.toLayout.tos μ) a
  /-- the context it passes on is inside it too -/
  block : ∀ μ f, Executes im t l μ (.bl f) → f ∈ [im.hilevelHandlerRst, im.hilevelHandlerIrq] →
    ∀ a ∈ addrs (t.gpr 0) Ctx.size, Layout.WordIn (im.toLayout.tos μ) a
  /-- calls of C code are aligned -/
  calls : ∀ μ f, Executes im t l μ (.bl f) →
    f ∈ [im.hilevelHandlerRst, im.hilevelHandlerIrq, im.hilevelHandlerSvc] → (t.sp μ).toNat % 8 = 0

/-- The discipline, of a run. -/
structure StackDiscipline (im : Image) (m : Machine) (ls : List Label) : Prop where
  /-- from the `ldr` that loads it on, a stack pointer is inside its stack -/
  inside : ∀ μ ≠ Mode.usr, ∀ pre post t, ls = pre ++ post → run im.step m pre = some t →
    (∃ u l u', Takes im.step m pre u l u' ∧ Executes im u l μ (.ldrLit .sp (im.toLayout.tos μ))) →
    Layout.SpIn (im.toLayout.tos μ) (t.sp μ)
  steps : ∀ t l t', Takes im.step m ls t l t' → StackStep im t l t'

/-! ## Before the `add` -/

section
variable {im : Image} {m m' : Machine} {ls : List Label}

/-- Of the stack pointers these instructions change the loaded one at most. -/
theorem Instr.Quiet.exec_sp {S : Symbols} {L : Layout} {μ : Mode} {i : Instr} {x : Scratch}
    {t t' : Machine} (h : i.Quiet S μ) (hs : i.exec L μ x t = some t') :
    (i = .ldrLit .sp (S.tos μ) ∧ t'.sp = Function.update t.sp μ (S.tos μ)) ∨
      (∀ a, i ≠ .ldrLit .sp a) ∧ t'.sp = t.sp := by
  by_cases hload : ∃ a, i = .ldrLit .sp a
  · obtain ⟨a, rfl⟩ := hload
    obtain rfl := h.load a rfl
    obtain rfl := Option.some.inj hs
    exact Or.inl ⟨rfl, rfl⟩
  · refine Or.inr ⟨fun a ha => hload ⟨a, ha⟩, ?_⟩
    have hmem := h.mem
    simp only [Symbols.quietCode, intInitCode, lolevelHandlerRstCode, List.take_succ_cons,
      List.take_zero, List.cons_append, List.nil_append, List.mem_cons, List.not_mem_nil,
      or_false] at hmem
    rcases hmem with rfl | rfl | rfl | rfl | rfl | rfl | rfl | rfl | rfl | rfl | rfl | rfl | rfl <;>
      first | exact absurd ⟨_, rfl⟩ hload | exact (Option.some.inj hs) ▸ rfl

/-- A stack pointer that is loaded stays where it is. -/
theorem Quiet.sp_next {t t' : Machine} {l : Label} {μ : Mode} (h : Quiet im t)
    (ht : t.sp μ = im.toLayout.tos μ ∨ Executes im t l μ (.ldrLit .sp (im.toLayout.tos μ)))
    (hs : im.step t l = some t') : t'.sp μ = im.toLayout.tos μ := by
  obtain ⟨i, hi, hq⟩ := h.code
  obtain ⟨ν, hp, hν⟩ := h.mode
  have hl := h.isExec hs
  rcases l with _ | _ | _ | x
  iterate 3 exact hl.elim
  rw [Image.step_exec hν hp hi] at hs
  rcases (hq ν hν).exec_sp hs with ⟨hload, hsp⟩ | ⟨hload, hsp⟩
  · rw [hsp]
    by_cases hμ : μ = ν
    · rw [hμ, Function.update_self]
    · rw [Function.update_of_ne hμ]
      exact ht.resolve_right fun he => hμ (Option.some.inj (he.mode.symm.trans hν))
  · rw [hsp]
    exact ht.resolve_right fun he => hload _ (Option.some.inj (hi.symm.trans he.fetch))

theorem Image.intInit_ne (im : Image) {f : Word} {is : List Instr}
    (hf : CodeAt im.fetch f (.c .enter :: is)) :
    im.toSymbols.intInit ≠ f := by
  intro he
  have h₁ := im.intInitCode 0 _ rfl
  have h₂ := hf 0 _ rfl
  rw [he, h₂] at h₁
  cases h₁

theorem Instr.Quiet.stores_eq {S : Symbols} {μ ν : Mode} {i : Instr} {t : Machine}
    (h : i.Quiet S μ) : i.stores ν t = [] := by
  have hmem := h.mem
  cases i <;> first | rfl | simp [Symbols.quietCode, intInitCode, lolevelHandlerRstCode] at hmem

theorem Quiet.stackStep {t t' : Machine} {l : Label} (h : Quiet im t) (hu : t'.mode ≠ some .usr) :
    StackStep im t l t' := by
  obtain ⟨i, hi, hq⟩ := h.code
  have hexec : ∀ {μ j}, Executes im t l μ j → j.Quiet im.toSymbols μ := fun he => by
    rw [Option.some.inj (he.fetch.symm.trans hi)]
    exact hq _ he.mode
  have hbl : ∀ {μ f}, Executes im t l μ (.bl f) → f = im.toSymbols.intInit := fun he => by
    simpa [Symbols.quietCode, intInitCode, lolevelHandlerRstCode] using (hexec he).mem
  refine ⟨fun h' => absurd h' hu, fun _ _ _ h' => absurd h' hu, ?_, ?_, ?_⟩
  · intro μ j he a ha
    rw [(hexec he).stores_eq] at ha
    cases ha
  · intro μ f he hf
    rw [hbl he] at hf
    simp only [List.mem_cons, List.not_mem_nil, or_false] at hf
    rcases hf with hf | hf
    · exact absurd hf (im.intInit_ne im.hRstCode)
    · exact absurd hf (im.intInit_ne im.hIrqCode)
  · intro μ f he hf
    rw [hbl he] at hf
    simp only [List.mem_cons, List.not_mem_nil, or_false] at hf
    rcases hf with hf | hf | hf
    · exact absurd hf (im.intInit_ne im.hRstCode)
    · exact absurd hf (im.intInit_ne im.hIrqCode)
    · exact absurd hf (im.intInit_ne im.hSvcCode)

theorem not_usr_of {t : Machine} (h : ∃ μ, μ ≠ Mode.usr ∧ t.mode = some μ) :
    t.mode ≠ some .usr := by
  obtain ⟨μ, hp, hμ⟩ := h
  rw [hμ]
  exact fun hu => hp (Option.some.inj hu)

theorem spIn_top (top : Word) : Layout.SpIn top top := by
  constructor <;> omega

theorem stackDiscipline_of_le (h : m.Reset im.toSymbols) (hlen : ls.length ≤ 53) :
    StackDiscipline im m ls := by
  have hpath := Image.path_add h
  have hquiet : AllSteps im.step m ls fun t _ => Quiet im t := fun t l t' ht =>
    hpath.takes (fun _ _ _ hq => hq.isExec) hlen ht
  refine ⟨?_, ?_⟩
  · rintro μ - pre post t rfl hr hload
    have hsp : t.sp μ = im.toLayout.tos μ := by
      refine run_since (I := fun v => v.sp μ = im.toLayout.tos μ) ?_ hr hquiet.left hload
      intro _ _ _ hq hi hs
      exact Quiet.sp_next hq hi hs
    rw [hsp]
    exact spIn_top _
  · intro t l t' ht
    refine (hquiet t l t' ht).stackStep ?_
    rcases hpath.visits (fun _ _ _ hq => hq.isExec) hlen ht.visits_next with h' | h'
    · exact not_usr_of h'.mode
    · exact not_usr_of ⟨.svc, Mode.svc_ne_usr, h'.mode⟩

/-! ## What goes wrong -/

/-- The `add` moves the stack pointer 68 bytes above the top of its stack. -/
theorem AtAdd.spSvc_next {t t' : Machine} {l : Label} (h : AtAdd im.toSymbols t)
    (hs : im.step t l = some t') : t'.sp .svc = im.tosSvc + 68 := by
  have hl := Image.isExec_of_svc h.mode h.masked hs
  rcases l with _ | _ | _ | x
  iterate 3 exact hl.elim
  rw [Image.step_exec h.mode Mode.svc_ne_usr (im.rstCode.fetch_eq rfl h.pc)] at hs
  obtain rfl := Option.some.inj hs
  simp [Machine.set, Machine.next, Machine.get, h.spSvc]

theorem not_stackDiscipline (h : m.Reset im.toSymbols) (hr : run im.step m ls = some m')
    (hlen : 53 < ls.length) : ¬ StackDiscipline im m ls := by
  intro hd
  obtain ⟨t, ht, hrt, hrest⟩ :=
    (Image.path_add h).reaches (fun _ _ _ hq => hq.isExec) hr hlen.le
  obtain ⟨u, l, u', hu, htake⟩ :=
    (Image.path_load h).leaves (fun _ _ _ hq => hq.isExec) hrt (by rw [List.length_take]; omega)
  rw [List.drop_eq_getElem_cons hlen] at hrest
  obtain ⟨t', hs, -⟩ := Option.bind_eq_some_iff.1 hrest
  have hload : Executes im u l .svc (.ldrLit .sp im.tosSvc) :=
    ⟨Image.isExec_of_svc hu.mode hu.masked htake.step_eq, hu.mode, Mode.svc_ne_usr,
      im.rstCode.fetch_eq rfl hu.pc⟩
  have hls : ls = ls.take 53 ++ [ls[53]] ++ ls.drop 54 := by
    rw [List.append_assoc, List.singleton_append, ← List.drop_eq_getElem_cons hlen,
      List.take_append_drop]
  have hrt' : run im.step m (ls.take 53 ++ [ls[53]]) = some t' := by
    rw [run_append_of hrt, run_cons_of hs, run_nil]
  have hin := (hd.inside .svc (by decide) _ _ t' hls hrt' ⟨u, l, u', htake.append _, hload⟩).2
  rw [ht.spSvc_next hs] at hin
  have := im.toNat_tosSvc
  have := im.fits
  have hin' : (im.tosSvc + 68).toNat ≤ im.tosSvc.toNat := hin
  bv_omega

/-- **The stack discipline** holds exactly in the runs that do not execute the
    `add sp, sp, #68` of the reset handler. -/
theorem stackDiscipline_iff (im : Image) (m m' : Machine) (ls : List Label)
    (h : m.Reset im.toSymbols) (hr : run im.step m ls = some m') :
    StackDiscipline im m ls ↔ AllSteps im.step m ls fun t l => ¬ ExecutesAt im.addSp t l := by
  rw [(Image.path_add h).avoids_iff (fun _ _ _ hq => hq.isExec) (fun _ _ ht => ht.not_executesAt)
    (fun _ _ _ ht hs => ⟨Image.isExec_of_svc ht.mode ht.masked hs, ht.pc⟩) hr]
  constructor
  · intro hd
    by_contra hlen
    exact not_stackDiscipline h hr (by omega) hd
  · exact stackDiscipline_of_le h

/-- From the end of the reset path on, at every boundary at which a process
    runs, `sp_svc` is 136 bytes above its stack, and the six words that an SVC
    exception stores go to the stack of `P1`. -/
theorem svcStack_shifted (h : m.Reset im.toSymbols) (xs : Fin 69 → Scratch) (es : List Event) :
    ∃ v t, run im.step m (execs xs) = some v ∧ run im.step v (labels es) = some t ∧
      ¬ Layout.SpIn (im.toLayout.tos .svc) (t.sp .svc) ∧
      ∀ a ∈ addrs (t.sp .svc - 24) svcSaved.length, Layout.WordIn im.tosP1 a := by
  obtain ⟨v, hr, hv⟩ := run_execs (Image.path_enter h) xs
  obtain ⟨t, hr', ht⟩ := refines_run hv.refines es
  have := im.toNat_tosSvc
  have := im.fits
  have hP1 : im.tosP1.toNat = im.stackBase.toNat + 0x3000 := by
    unfold Layout.tosP1; bv_omega
  refine ⟨v, t, hr, hr', ?_, ?_⟩
  · intro hin
    have h2 : (t.sp .svc).toNat ≤ im.tosSvc.toNat := hin.2
    rw [ht.atUser.spSvc] at h2
    bv_omega
  · intro a ha
    obtain ⟨k, hk, rfl⟩ := mem_addrs.1 ha
    have hk : k < 6 := hk
    rw [ht.atUser.spSvc]
    constructor <;> bv_omega

end

/-- The kernel of `image.bin` as far as the `add`. -/
theorem stackDiscipline_image :
    StackDiscipline Image.bin (.powerOn .image) (execs fun _ : Fin 53 => .zero) := by
  have hreset : (Machine.powerOn .image).Reset Image.bin.toSymbols := Machine.reset_powerOn _
  have hpath := Image.path_add hreset
  obtain ⟨m', hr, -⟩ := run_execs hpath fun _ => .zero
  refine (stackDiscipline_iff _ _ m' _ hreset hr).2 ?_
  intro t l t' ht
  exact (hpath.takes (fun _ _ _ hq => hq.isExec) (by simp [execs]) ht).not_executesAt

/-- The reset path, a step of `P1` that sets its registers to 7, and the first
    two instructions of the SVC handler. -/
def firstSvc : List Label :=
  execs (fun _ : Fin 69 => .zero) ++
    .user ⟨fun _ => 7, Layout.image.tosP1, 0, Layout.image.mainP1, 0, fun _ => 0⟩ ::
    .svc :: execs fun _ : Fin 2 => .zero

/-- They store r0 in the stack of `P1`. -/
theorem not_stackDiscipline_firstSvc :
    (run Image.bin.step (.powerOn .image) firstSvc).map (fun t =>
        (t.sp .svc, t.mem (Layout.image.tosSvc + 112))) = some (Layout.image.tosSvc + 112, 7) ∧
    ¬ StackDiscipline Image.bin (.powerOn .image) firstSvc := by
  have hrun : (run Image.bin.step (.powerOn .image) firstSvc).map (fun t =>
      (t.sp .svc, t.mem (Layout.image.tosSvc + 112))) =
    some (Layout.image.tosSvc + 112, 7) := by decide +kernel
  obtain ⟨t, hr, -⟩ := Option.map_eq_some_iff.1 hrun
  exact ⟨hrun, not_stackDiscipline (Machine.reset_powerOn _) hr (by decide)⟩

end CcKernel
