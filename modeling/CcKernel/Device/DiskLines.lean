/-
  The disk server on arbitrary lines.

  Nothing guards the server's `unhexlify`, `unpack` and indexing, or the seek to
  a negative offset, and extra fields are ignored: the loop body does what is
  expected of it on exactly the lines that are `Answerable`.
-/
import CcKernel.Device.DiskServer

namespace CcKernel

open PyStr Blocks

/-- The fields of a request, as the driver writes them. -/
def WellFormed : List Str → Prop
  | [cmd] => cmd = reqConf
  | [cmd, ah] => cmd = reqRd ∧ Hex 4 ah
  | [cmd, ah, dh] => cmd = reqWr ∧ Hex 4 ah ∧ ∃ n, Hex n dh
  | _ => False

/-- `00`, `01`, or `00` and data in hexadecimal -/
inductive AckLine : Str → Prop
  | okay : AckLine ackOkay
  | fail : AckLine ackFail
  | data {bs : Str} : bs ≠ [] → AckLine (ackOkay ++ [space] ++ hexlify bs)

/-- The loop body answers the line with one acknowledgement; with 01 and no
    change to the image unless the line is a well-formed request. -/
def Survives (g : Geometry) (d : DiskState) (line : Str) : Prop :=
  ∃ ack d', loopBody g d line = .ok (ack ++ [chr '\n'], d') ∧ AckLine ack ∧
    (¬ WellFormed (split (strip line)) → ack = ackFail ∧ d'.file = d.file)

/-- What is expected of the acknowledgement of a request. -/
def Proper (req : List Str) (d : DiskState) (r : Except Exn (List Str × DiskState)) : Prop :=
  ∃ ack d', r = .ok (ack, d') ∧ AckLine (ackString ack) ∧
    (¬ WellFormed req → ackString ack = ackFail ∧ d'.file = d.file)

/-- `os.write` is going to store too few bytes at the offset, and they are there
    already. -/
def ShortWrite (g : Geometry) (d : DiskState) (off : ℕ) (data : Str) : Prop :=
  ∃ m ∈ d.counts.head?, m < g.blockLen ∧ writeAt d.file off (data.take m) = d.file

/-- A write with the arguments `args` that is answered properly. -/
def WrAnswerable (g : Geometry) (d : DiskState) (args : List Str) : Prop :=
  ∃ ah dh rest a data, args = ah :: dh :: rest ∧ addressOf ah = .ok a ∧ unhexlify dh = .ok data ∧
    (g.blockNum ≤ a ∨ data.length ≠ g.blockLen ∨
      0 ≤ a ∧ (rest = [] ∨ ShortWrite g d (a.toNat * g.blockLen) data))

/-- A read with the arguments `args` that is answered properly. -/
def RdAnswerable (g : Geometry) (d : DiskState) (args : List Str) : Prop :=
  ∃ ah rest a, args = ah :: rest ∧ addressOf ah = .ok a ∧
    (g.blockNum ≤ a ∨
      0 ≤ a ∧ (rest = [] ∨ (block g.blockLen d.file a.toNat).length ≠ g.blockLen))

/-- An unknown command; a query without arguments; a write or a read whose
    arguments can be decoded, without further ones unless it fails anyway, and
    whose address is not negative. -/
def Answerable (g : Geometry) (d : DiskState) (req : List Str) : Prop :=
  ∃ cmd args, req = cmd :: args ∧ (cmd ∉ [reqConf, reqWr, reqRd] ∨ cmd = reqConf ∧ args = [] ∨
    cmd = reqWr ∧ WrAnswerable g d args ∨ cmd = reqRd ∧ RdAnswerable g d args)

variable {g : Geometry} {d d' : DiskState} {req args : List Str}

theorem addressOf_ok_iff {ah : Str} : (∃ a, addressOf ah = .ok a) ↔ Hex 4 ah := by
  rw [hex_iff]
  constructor
  · rintro ⟨a, h⟩
    obtain ⟨bs, hbs, hu⟩ := addressOf_eq_ok h
    exact ⟨bs, hbs, unpackL_ok_iff.1 ⟨a, hu⟩⟩
  · rintro ⟨bs, hbs, hlen⟩
    obtain ⟨a, hu⟩ := unpackL_ok_iff.2 hlen
    refine ⟨a, ?_⟩
    unfold addressOf
    rw [hbs]
    exact hu

/-! ## Requests that cannot be decoded -/

theorem wr_address_error {cmd ah : Str} {rest : List Str} {e : Exn} (h : addressOf ah = .error e) :
    wr g (cmd :: ah :: rest) d = .error e := address_error h _

theorem rd_address_error {cmd ah : Str} {rest : List Str} {e : Exn} (h : addressOf ah = .error e) :
    rd g (cmd :: ah :: rest) d = .error e := address_error h _

theorem wr_data_error {cmd ah dh : Str} {rest : List Str} {a : ℤ} {e : Exn}
    (ha : addressOf ah = .ok a)
    (h : unhexlify dh = .error e) : wr g (cmd :: ah :: dh :: rest) d = .error e := by
  refine (address_ok ha _).trans ?_
  show (unhexlify dh >>= _) = _
  rw [h]
  rfl

/-! ## What is proper -/

theorem not_proper_error (e : Exn) : ¬ Proper req d (.error e) := by
  rintro ⟨ack, d', h, -⟩
  cases h

theorem proper_fail : Proper req d (.ok ([ackFail], d)) := ⟨_, _, rfl, .fail, fun _ => ⟨rfl, rfl⟩⟩

theorem proper_ok_iff {ack : List Str} : Proper req d (.ok (ack, d')) ↔
    AckLine (ackString ack) ∧ (¬ WellFormed req → ackString ack = ackFail ∧ d'.file = d.file) := by
  constructor
  · rintro ⟨ack', d'', h, hline, hbad⟩
    cases h
    exact ⟨hline, hbad⟩
  · rintro ⟨hline, hbad⟩
    exact ⟨ack, d', rfl, hline, hbad⟩

/-- An acknowledgement with data is proper for well-formed requests only. -/
theorem proper_data_iff {bs : Str} (hbs : bs ≠ []) :
    Proper req d (.ok ([ackOkay, bs], d')) ↔ WellFormed req := by
  have hack : ackString [ackOkay, bs] = ackOkay ++ [space] ++ hexlify bs := by
    simp [ackString, List.intercalate]
  rw [proper_ok_iff, hack]
  constructor
  · rintro ⟨-, hbad⟩
    by_contra hreq
    have h := congrArg List.length (hbad hreq).1
    simp [ackOkay, ackFail] at h
  · intro hreq
    exact ⟨.data hbs, fun hbad => absurd hreq hbad⟩

theorem wellFormed_wr_iff {ah dh : Str} {rest : List Str} {a : ℤ} {data : Str}
    (ha : addressOf ah = .ok a) (hd : unhexlify dh = .ok data) :
    WellFormed (reqWr :: ah :: dh :: rest) ↔ rest = [] := by
  rcases rest with _ | ⟨x, rest⟩
  · simp only [WellFormed, iff_true, true_and]
    exact ⟨addressOf_ok_iff.1 ⟨a, ha⟩, data.length, hex_iff.2 ⟨data, hd, rfl⟩⟩
  · simp [WellFormed]

theorem wellFormed_rd_iff {ah : Str} {rest : List Str} {a : ℤ} (ha : addressOf ah = .ok a) :
    WellFormed (reqRd :: ah :: rest) ↔ rest = [] := by
  rcases rest with _ | ⟨dh, _ | ⟨x, rest⟩⟩
  · simp only [WellFormed, iff_true, true_and]
    exact addressOf_ok_iff.1 ⟨a, ha⟩
  · simp [WellFormed, reqRd, reqWr, chr]
  · simp [WellFormed]

theorem wellFormed_conf_iff : WellFormed (reqConf :: args) ↔ args = [] := by
  rcases args with _ | ⟨ah, _ | ⟨dh, _ | ⟨x, args⟩⟩⟩
  · simp [WellFormed]
  · simp [WellFormed, reqConf, reqRd, chr]
  · simp [WellFormed, reqConf, reqWr, chr]
  · simp [WellFormed]

/-! ## The commands -/

theorem shortWrite_iff {off : ℕ} {data : Str} (h : data.length = g.blockLen) :
    ShortWrite g d off data ↔
      (osWrite off data d).1 ≠ g.blockLen ∧ (osWrite off data d).2.file = d.file := by
  unfold ShortWrite osWrite
  rcases d.counts with _ | ⟨m, cs⟩
  · simp [h]
  · simp only [List.head?_cons, Option.mem_def, Option.some.injEq, exists_eq_left',
      List.headD_cons, h]
    by_cases hm : m < g.blockLen
    · simp [hm, hm.ne, Nat.min_eq_left hm.le]
    · simp [hm, Nat.min_eq_right (not_lt.1 hm)]

theorem proper_conf_iff : Proper (reqConf :: args) d (conf g d) ↔ args = [] := by
  rw [conf_eq, proper_data_iff (by simp [le32]), wellFormed_conf_iff]

theorem proper_wr_iff :
    Proper (reqWr :: args) d (wr g (reqWr :: args) d) ↔ WrAnswerable g d args := by
  rcases args with _ | ⟨ah, args⟩
  · -- no address
    simp only [WrAnswerable, List.nil_eq, reduceCtorEq, false_and, exists_false, iff_false]
    exact not_proper_error .indexError
  rcases ha : addressOf ah with e | a
  · rw [wr_address_error ha]
    simp [WrAnswerable, ha, not_proper_error]
  rcases args with _ | ⟨dh, rest⟩
  · rw [wr_no_data ha]
    simp [WrAnswerable, not_proper_error]
  rcases hd : unhexlify dh with e | data
  · rw [wr_data_error ha hd]
    simp [WrAnswerable, hd, not_proper_error]
  have hargs : WrAnswerable g d (ah :: dh :: rest) ↔ (g.blockNum ≤ a ∨ data.length ≠ g.blockLen ∨
      0 ≤ a ∧ (rest = [] ∨ ShortWrite g d (a.toNat * g.blockLen) data)) := by
    simp [WrAnswerable, ha, hd]
  rw [wr_eq ha hd, hargs]
  by_cases hrej : (g.blockNum : ℤ) ≤ a ∨ data.length ≠ g.blockLen
  · rw [if_pos hrej, ← or_assoc]
    exact iff_of_true proper_fail (Or.inl hrej)
  rw [if_neg hrej, ← or_assoc, or_iff_right hrej]
  by_cases hneg : a < 0
  · rw [if_pos hneg]
    exact iff_of_false (not_proper_error _) fun h => absurd h.1 (not_le.2 hneg)
  have hlen : data.length = g.blockLen := not_not.1 (not_or.1 hrej).2
  rw [if_neg hneg, and_iff_right (not_lt.1 hneg), proper_ok_iff, wellFormed_wr_iff ha hd,
    shortWrite_iff hlen]
  split
  · rename_i hn
    simp only [ackString, hn, ne_eq, not_true_eq_false, false_and, or_false]
    constructor
    · rintro ⟨-, h⟩
      by_contra hrest
      exact absurd (h hrest).1 (by decide)
    · intro h
      exact ⟨.okay, fun hrest => absurd h hrest⟩
  · rename_i hn
    simp only [ackString, hn, ne_eq, not_false_eq_true, true_and, AckLine.fail]
    exact Decidable.or_iff_not_imp_left.symm

theorem proper_rd_iff :
    Proper (reqRd :: args) d (rd g (reqRd :: args) d) ↔ RdAnswerable g d args := by
  rcases args with _ | ⟨ah, rest⟩
  · -- no address
    simp only [RdAnswerable, List.nil_eq, reduceCtorEq, false_and, exists_false, iff_false]
    exact not_proper_error .indexError
  rcases ha : addressOf ah with e | a
  · rw [rd_address_error ha]
    simp [RdAnswerable, ha, not_proper_error]
  have hargs : RdAnswerable g d (ah :: rest) ↔ (g.blockNum ≤ a ∨
      0 ≤ a ∧ (rest = [] ∨ (block g.blockLen d.file a.toNat).length ≠ g.blockLen)) := by
    simp [RdAnswerable, ha]
  rw [rd_eq ha, hargs]
  by_cases hrej : (g.blockNum : ℤ) ≤ a
  · rw [if_pos hrej]
    exact iff_of_true proper_fail (Or.inl hrej)
  rw [if_neg hrej, or_iff_right hrej]
  by_cases hneg : a < 0
  · rw [if_pos hneg]
    exact iff_of_false (not_proper_error _) fun h => absurd h.1 (not_le.2 hneg)
  rw [if_neg hneg, and_iff_right (not_lt.1 hneg)]
  split
  · rename_i hshort
    exact iff_of_true proper_fail (Or.inr hshort)
  · rename_i hfull
    rw [or_iff_left hfull, ← wellFormed_rd_iff ha]
    refine proper_data_iff ?_
    intro hnil
    rw [hnil] at hfull
    exact hfull (Nat.ne_of_lt g.blockLen_pos)

theorem proper_acknowledge_iff (hreq : req ≠ []) :
    Proper req d (acknowledge g req d) ↔ Answerable g d req := by
  obtain ⟨cmd, args, rfl⟩ := List.exists_cons_of_ne_nil hreq
  have hans : Answerable g d (cmd :: args) ↔ (cmd ∉ [reqConf, reqWr, reqRd] ∨
      cmd = reqConf ∧ args = [] ∨ cmd = reqWr ∧ WrAnswerable g d args ∨
      cmd = reqRd ∧ RdAnswerable g d args) := by
    simp [Answerable]
  rw [hans]
  by_cases hcmd : cmd ∈ [reqConf, reqWr, reqRd]
  · rw [or_iff_right (not_not.2 hcmd)]
    simp only [List.mem_cons, List.not_mem_nil, or_false] at hcmd
    rcases hcmd with rfl | rfl | rfl
    · rw [acknowledge_conf, proper_conf_iff]
      simp [reqConf, reqWr, reqRd, chr]
    · rw [acknowledge_wr, proper_wr_iff]
      simp [reqConf, reqWr, reqRd, chr]
    · rw [acknowledge_rd, proper_rd_iff]
      simp [reqConf, reqWr, reqRd, chr]
  · rw [acknowledge_other hcmd]
    exact iff_of_true proper_fail (Or.inl hcmd)

/-! ## The loop body -/

theorem survives_iff_proper (line : Str) :
    Survives g d line ↔ Proper (split (strip line)) d (acknowledge g (split (strip line)) d) := by
  constructor
  · rintro ⟨ack, d', h, hline, hbad⟩
    rcases hack : acknowledge g (split (strip line)) d with e | ⟨ack', d''⟩
    · rw [loopBody_error hack] at h
      cases h
    · rw [loopBody_ok hack] at h
      simp only [Except.ok.injEq, Prod.mk.injEq, List.append_cancel_right_eq] at h
      obtain ⟨rfl, rfl⟩ := h
      exact proper_ok_iff.2 ⟨hline, hbad⟩
  · rintro ⟨ack, d', hack, hline, hbad⟩
    exact ⟨_, d', loopBody_ok hack, hline, hbad⟩

/-- **The loop body answers exactly the answerable lines as it should.** -/
theorem survives_iff (g : Geometry) (d : DiskState) (line : Str) :
    Survives g d line ↔ Answerable g d (split (strip line)) := by
  rw [survives_iff_proper]
  exact proper_acknowledge_iff (List.splitOn_ne_nil _ _)

/-- A write to block 0 without data, as the driver sends it. -/
theorem not_survives_noData :
    ¬ Survives ⟨1, 1, le_rfl, le_rfl, by decide, by decide⟩ ⟨[0], []⟩
      ("01 00000000 \n".toList.map chr) := by
  rintro ⟨ack, d', h, -⟩
  have herr : loopBody ⟨1, 1, le_rfl, le_rfl, by decide, by decide⟩ ⟨[0], []⟩
      ("01 00000000 \n".toList.map chr) = .error .indexError := by rfl
  rw [herr] at h
  cases h

end CcKernel
