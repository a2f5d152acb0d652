/-
  The interrupt vector table (`int_data` and `int_init` of `kernel/int.s`).

  On an exception the core goes on at one of eight addresses from 0 on.  The
  table has an instruction for each of them: a load of `pc` from one of three
  words behind the instructions, or a branch to itself.  Both are relative to
  `pc`, so a copy of the table works wherever it is, and `int_init` copies it
  to 0 with the words it loads from.
-/
import CcKernel.Kernel.Switch

namespace CcKernel

open WordMem Lts

/-! ## Encodings -/

/-- The instructions in the table. -/
inductive VectorInstr where
  /-- `ldr pc, [pc, #imm]` -/
  | ldrPc (imm : BitVec 12)
  /-- `b`, by `off` words -/
  | b (off : BitVec 24)
  deriving DecidableEq, Repr

namespace VectorInstr

def encode : VectorInstr → Word
  | ldrPc imm => 0xE59FF000 ||| imm.setWidth 32
  | b off => 0xEA000000 ||| off.setWidth 32

def decode (w : Word) : Option VectorInstr :=
  if w &&& 0xFFFFF000 = 0xE59FF000 then some (ldrPc (w.setWidth 12))
  else if w &&& 0xFF000000 = 0xEA000000 then some (b (w.setWidth 24))
  else none

/-- Where the core goes on; `pc` reads as the address of the instruction plus 8. -/
def exec (mem : Mem) (pc : Word) : VectorInstr → Word
  | ldrPc imm => mem (pc + 8 + imm.setWidth 32)
  | b off => pc + 8 + (off.signExtend 32 <<< 2)

end VectorInstr

/-- The core executes what it fetches at `pc`. -/
def fetchStep (mem : Mem) (pc : Word) : Option Word :=
  (VectorInstr.decode (mem pc)).map (VectorInstr.exec mem pc)

/-! ## The table -/

/-- A line of `int_data`: `ldr pc, label`, with the index of the label's word, or
    `b .` -/
inductive TableLine where
  | ldr (label : ℕ)
  | spin

/-- The instruction for a line, as the `k`-th word. -/
def TableLine.assemble (k : ℕ) : TableLine → VectorInstr
  | ldr label => .ldrPc (BitVec.ofNat 12 (4 * label) - BitVec.ofNat 12 (4 * k + 8))
  | spin => .b (-2)

/-- `int_addr_rst`, `int_addr_svc` and `int_addr_irq` are words 8, 9 and 10. -/
def vectorTable : List TableLine :=
  [.ldr 8, .spin, .ldr 9, .spin, .spin, .spin, .ldr 10, .spin]

/-- The words at `int_data`. -/
def Symbols.intDataWords (S : Symbols) : List Word :=
  (vectorTable.mapIdx fun k line => (line.assemble k).encode) ++
    [S.lolevelHandlerRst, S.lolevelHandlerSvc, S.lolevelHandlerIrq]

/-- The words of `image.bin`. -/
example : Symbols.image.intDataWords =
    [0xE59FF018, 0xEAFFFFFE, 0xE59FF014, 0xEAFFFFFE, 0xEAFFFFFE, 0xEAFFFFFE, 0xE59FF008,
      0xEAFFFFFE, 0x70010000, 0x70010064, 0x70010034] := by decide

inductive IntVector where
  | reset | undefined | svc | prefetchAbort | dataAbort | reserved | irq | fiq
  deriving DecidableEq, Repr

namespace IntVector

def addr : IntVector → Word
  | reset => 0x00
  | undefined => 0x04
  | svc => 0x08
  | prefetchAbort => 0x0C
  | dataAbort => 0x10
  | reserved => 0x14
  | irq => 0x18
  | fiq => 0x1C

/-- The handler, for the interrupts that are handled. -/
def handler (S : Symbols) : IntVector → Option Word
  | reset => some S.lolevelHandlerRst
  | svc => some S.lolevelHandlerSvc
  | irq => some S.lolevelHandlerIrq
  | _ => none

end IntVector

section
variable {S : Symbols} {mem : Mem} {a : Word}

theorem word_of_table (h : load mem a 11 = S.intDataWords) {k : ℕ} {w : Word}
    (hk : S.intDataWords[k]? = some w) : mem (a + BitVec.ofNat 32 (4 * k)) = w := by
  rw [← h, getElem?_load] at hk
  split at hk
  · exact Option.some.inj hk
  · cases hk

/-- A line that loads `pc`. -/
theorem fetchStep_ldr (h : load mem a 11 = S.intDataWords) (k label : ℕ) {v w : Word}
    (hk : S.intDataWords[k]? = some v) (hlabel : S.intDataWords[label]? = some w)
    (hv : VectorInstr.decode v = some (TableLine.assemble k (.ldr label)))
    (hoff : BitVec.ofNat 32 (4 * k) + 8 +
        (BitVec.ofNat 12 (4 * label) - BitVec.ofNat 12 (4 * k + 8)).setWidth 32 =
      BitVec.ofNat 32 (4 * label)) :
    fetchStep mem (a + BitVec.ofNat 32 (4 * k)) = some w := by
  rw [fetchStep, word_of_table h hk, hv, Option.map_some, TableLine.assemble, VectorInstr.exec,
    BitVec.add_assoc, BitVec.add_assoc, ← BitVec.add_assoc (BitVec.ofNat 32 (4 * k)), hoff,
    word_of_table h hlabel]

/-- A line that branches to itself. -/
theorem fetchStep_spin (h : load mem a 11 = S.intDataWords) (k : ℕ) {v : Word}
    (hk : S.intDataWords[k]? = some v) (hv : VectorInstr.decode v = some (.b (-2))) :
    fetchStep mem (a + BitVec.ofNat 32 (4 * k)) = some (a + BitVec.ofNat 32 (4 * k)) := by
  have hoff : (8#32 : Word) + (BitVec.signExtend 32 (-2 : BitVec 24) <<< 2) = 0#32 := by decide
  rw [fetchStep, word_of_table h hk, hv, Option.map_some, VectorInstr.exec, BitVec.add_assoc]
  exact congrArg some ((congrArg (_ + ·) hoff).trans (BitVec.add_zero _))

/-- **The table works wherever it is**: an exception goes to its handler, or the
    core stays where it is. -/
theorem fetchStep_vector (h : load mem a 11 = S.intDataWords) (v : IntVector) :
    fetchStep mem (a + v.addr) = some ((v.handler S).getD (a + v.addr)) := by
  cases v with
  | reset => exact fetchStep_ldr h 0 8 rfl rfl (by decide) (by decide)
  | svc => exact fetchStep_ldr h 2 9 rfl rfl (by decide) (by decide)
  | irq => exact fetchStep_ldr h 6 10 rfl rfl (by decide) (by decide)
  | undefined => exact fetchStep_spin h 1 rfl (by decide)
  | prefetchAbort => exact fetchStep_spin h 3 rfl (by decide)
  | dataAbort => exact fetchStep_spin h 4 rfl (by decide)
  | reserved => exact fetchStep_spin h 5 rfl (by decide)
  | fiq => exact fetchStep_spin h 7 rfl (by decide)

end

/-! ## `int_init` -/

namespace Image
variable {im : Image} {m t : Machine}

/-- The head of the copying loop, with what has been copied. -/
structure Moving (im : Image) (m t : Machine) (j : ℕ) : Prop extends Copying im m t j where
  r0 : t.gpr 0 = BitVec.ofNat 32 (4 * j)
  mem : t.mem = store m.mem 0 ((load m.mem im.intData 11).take j)

/-- The words that are still to be copied have not been written to. -/
theorem Moving.word {j : ℕ} (h : Moving im m t j) (hj : j < 11) (hlo : 44 ≤ im.intData.toNat)
    (hhi : im.intData.toNat + 44 ≤ 2 ^ 32) :
    Function.update t.mem (t.gpr 0) (t.mem (t.gpr 1)) =
      store m.mem 0 ((load m.mem im.intData 11).take (j + 1)) := by
  have hlen : ((load m.mem im.intData 11).take j).length = j := by
    simp [load, addrs_length]
    omega
  have hsrc : t.mem (t.gpr 1) = m.mem (im.intData + BitVec.ofNat 32 (4 * j)) := by
    rw [h.mem, h.r1]
    refine store_of_notMem ?_
    rw [hlen, mem_addrs]
    rintro ⟨k, hk, heq⟩
    bv_omega
  rw [hsrc, h.mem, h.r0, List.take_add_one, getElem?_load, if_pos hj, Option.toList_some,
    store_concat, hlen]
  exact congrArg (Function.update _ · _) (BitVec.zero_add _).symm

section
variable {μ : Mode} (hμ : m.mode = some μ) (hp : μ ≠ .usr) (hm : m.Masked)
  (he : m.kernel.executing = none)
include hμ hp

/-- One round of the loop moves one word. -/
theorem path_word {j : ℕ} (h : Copying im m t j) :
    im.Path (fun _ => True) (fun v => v.gpr 0 = t.gpr 0 + 4 ∧
      v.mem = Function.update t.mem (t.gpr 0) (t.mem (t.gpr 1))) 4 t := by
  have hc := im.intInitCode
  have h3 := h.pc
  have h4 := pc_step h3
  have h5 := pc_step h4
  have h6 := pc_step h5
  have hμt : t.mode = some μ := (mode_of_psr h.psr).trans hμ
  have hpsr (flags : Word) : psrWrite 0xF0000000 t.cpsr flags &&& ~~~flagBits =
      t.cpsr &&& ~~~flagBits := psrWrite_keep (by decide) _ _
  refine Path.instr 3 hc rfl h3 hμt hp trivial fun _ => ⟨_, rfl, ?_⟩
  refine Path.instr 4 hc rfl h4 hμt hp trivial fun _ => ⟨_, rfl, ?_⟩
  refine Path.instr 5 hc rfl h5 hμt hp trivial fun _ => ⟨_, rfl, ?_⟩
  refine Path.instr 6 hc rfl h6 ((mode_of_psr (hpsr _)).trans hμt) hp trivial fun _ => ⟨_, rfl, ?_⟩
  constructor
  · simp [Machine.set, Machine.next, Machine.get, Machine.withMem]
  · simp [Machine.set, Machine.next, Machine.get, Machine.withMem, store]

/-- `int_init` returns, having copied the table. -/
structure Moved (im : Image) (μ : Mode) (m t : Machine) : Prop where
  pc : t.pc = m.lr μ
  mem : t.mem = store m.mem 0 (load m.mem im.intData 11)

include hm he

/-- The loop, by induction on the rounds that are left. -/
theorem path_words (hlo : 44 ≤ im.intData.toNat) (hhi : im.intData.toNat + 44 ≤ 2 ^ 32) (k : ℕ)
    {j : ℕ} (hjk : j + k = 10) (h : Moving im m t j) :
    im.Path (fun _ => True) (Moved im μ m) (4 * k + (4 + 1)) t := by
  have hround := (path_round hμ hp hm he h.toCopying).and (path_word hμ hp h.toCopying)
  replace hround := hround.mono (fun _ _ => trivial) fun _ h => h
  have hword := h.word (by omega) hlo hhi
  induction k generalizing t j with
  | zero =>
    show im.Path (fun _ => True) (Moved im μ m) (4 + 1) t
    refine Goes.seq hround ?_
    rintro v ⟨⟨hpc, hpsr, -, -, hlr, -⟩, -, hmem⟩
    have hend : im.intData + BitVec.ofNat 32 (4 * (j + 1)) = im.toSymbols.intInit := by
      rw [show j = 10 by omega]; rfl
    rw [if_pos hend] at hpc
    refine Path.instr 7 im.intInitCode rfl hpc ((mode_of_psr hpsr).trans hμ) hp trivial
      fun _ => ⟨_, rfl, congrFun hlr μ, ?_⟩
    have hall : (load m.mem im.intData 11).take (j + 1) = load m.mem im.intData 11 :=
      List.take_of_length_le (by simp [load, addrs_length]; omega)
    rw [← hall, ← hword, ← hmem]
  | succ k ih =>
    rw [show 4 * (k + 1) + (4 + 1) = 4 + (4 * k + (4 + 1)) by omega]
    refine Goes.seq hround ?_
    rintro v ⟨⟨hpc, hpsr, h1, h2, hlr, hrest⟩, h0, hmem⟩
    have hmore : im.intData + BitVec.ofNat 32 (4 * (j + 1)) ≠ im.toSymbols.intInit := by
      unfold Symbols.intInit
      bv_omega
    rw [if_neg hmore] at hpc
    have hv : Moving im m v (j + 1) := by
      refine ⟨⟨hpc, hpsr, h1, h2, hlr, hrest⟩, ?_, by rw [hmem, hword]⟩
      rw [h0, h.r0]
      bv_omega
    refine ih (by omega) hv ?_ (hv.word (by omega) hlo hhi)
    exact ((path_round hμ hp hm he hv.toCopying).and (path_word hμ hp hv.toCopying)).mono
      (fun _ _ => trivial) fun _ h => h

/-- A call of `int_init` moves the table. -/
theorem path_moved (hpc : m.pc = im.toSymbols.intInit) (hlo : 44 ≤ im.intData.toNat)
    (hhi : im.intData.toNat + 44 ≤ 2 ^ 32) :
    im.Path (fun _ => True) (Moved im μ m) (4 * 10 + (4 + 1) + 3) m := by
  have hc := im.intInitCode
  have h0 : m.pc = im.toSymbols.intInit + BitVec.ofNat 32 (4 * 0) := by rw [hpc]; simp
  have h1 := pc_step h0
  have h2 := pc_step h1
  refine Path.instr 0 hc rfl h0 hμ hp trivial fun _ => ⟨_, rfl, ?_⟩
  refine Path.instr 1 hc rfl h1 hμ hp trivial fun _ => ⟨_, rfl, ?_⟩
  refine Path.instr 2 hc rfl h2 hμ hp trivial fun _ => ⟨_, rfl, ?_⟩
  refine path_words hμ hp hm he hlo hhi 10 rfl ⟨⟨pc_step h2, rfl, ?_, ?_, rfl, rfl, rfl⟩, ?_, rfl⟩
  · simp [Machine.set, Machine.next]
  · simp [Machine.set, Machine.next]
  · simp [Machine.set, Machine.next]

end

end Image

/-- **The reset handler installs the vectors**: if the image holds the table away
    from address 0, then when `int_init` returns an exception goes to its
    handler, as `takeSvc` and `takeIrq` have it, an interrupt that is not
    handled stops the core where it is, and nothing else has been written. -/
theorem vectors_installed (im : Image) {m : Machine} (h : m.Reset im.toSymbols)
    (hlo : 44 ≤ im.intData.toNat) (hhi : im.intData.toNat + 44 ≤ 2 ^ 32)
    (hdata : load m.mem im.intData 11 = im.toSymbols.intDataWords) (xs : Fin 49 → Scratch) :
    ∃ t, run im.step m (execs xs) = some t ∧ t.pc = im.lolevelHandlerRst + 4 ∧
      (∀ v : IntVector, fetchStep t.mem v.addr = some ((v.handler im.toSymbols).getD v.addr)) ∧
      fetchStep t.mem IntVector.svc.addr = some (t.takeSvc im.toSymbols).pc ∧
      (∀ id, fetchStep t.mem IntVector.irq.addr = some (t.takeIrq im.toSymbols id).pc) ∧
      ∀ a : Word, 44 ≤ a.toNat → t.mem a = m.mem a := by
  have hsvc := Mode.svc_ne_usr
  have hm : m.Masked := and_of_and h.masked (by decide)
  have h0 : m.pc = im.lolevelHandlerRst + BitVec.ofNat 32 (4 * 0) := by rw [h.pc]; simp
  have hpath : im.Path (fun _ => True) (fun t => t.pc = im.lolevelHandlerRst + 4 ∧
      t.mem = store m.mem 0 (load m.mem im.intData 11)) (48 + 1) m := by
    refine Image.Path.instr 0 im.rstCode rfl h0 h.mode hsvc trivial fun _ => ⟨_, rfl, ?_⟩
    refine Goes.mono_right (Image.path_moved h.mode hsvc hm h.executing rfl hlo hhi) ?_
    rintro t ⟨hpc, hmem⟩
    refine ⟨?_, hmem⟩
    rw [hpc]
    simp [h.pc]
  obtain ⟨t, hr, hpc, hmem⟩ := run_execs hpath xs
  have htable : load t.mem 0 11 = im.toSymbols.intDataWords := by
    have hlen : (load m.mem im.intData 11).length = 11 := by simp [load, addrs_length]
    have hload : load (store m.mem 0 (load m.mem im.intData 11)) 0
        (load m.mem im.intData 11).length = load m.mem im.intData 11 :=
      load_store (by rw [hlen]; decide)
    rw [hlen, ← hmem] at hload
    rw [hload, hdata]
  have hvec (v : IntVector) :
      fetchStep t.mem v.addr = some ((v.handler im.toSymbols).getD v.addr) := by
    have hv := fetchStep_vector htable v
    have hzero : (0 : Word) + v.addr = v.addr := BitVec.zero_add _
    rwa [hzero] at hv
  refine ⟨t, hr, hpc, hvec, hvec .svc, fun id => hvec .irq, fun a ha => ?_⟩
  rw [hmem]
  refine store_of_notMem ?_
  rw [show (load m.mem im.intData 11).length = 11 by simp [load, addrs_length], mem_addrs]
  rintro ⟨k, hk, rfl⟩
  bv_omega

/-- `image.bin` in memory, as far as `int_data` goes. -/
def loaded : Machine :=
  (Machine.powerOn .image).withMem
    (store (fun _ => 0) Symbols.image.intData Symbols.image.intDataWords)

theorem vectors_installed_image : ∃ t,
    run Image.bin.step loaded (execs fun _ : Fin 49 => .zero) = some t ∧
      fetchStep t.mem 0x18 = some 0x70010034 ∧ fetchStep t.mem 0x1C = some 0x1C := by
  obtain ⟨hmode, hmasked, hpc, he, hf⟩ := Machine.reset_powerOn .image
  have hlen : 4 * Symbols.image.intDataWords.length ≤ 2 ^ 32 := by decide
  have hdata : load loaded.mem Symbols.image.intData 11 = Symbols.image.intDataWords :=
    load_store hlen
  obtain ⟨t, hr, -, hvec, -⟩ := vectors_installed Image.bin (m := loaded)
    ⟨hmode, hmasked, hpc, he, hf⟩ (by decide) (by decide) hdata fun _ => .zero
  exact ⟨t, hr, hvec .irq, hvec .fiq⟩

end CcKernel
