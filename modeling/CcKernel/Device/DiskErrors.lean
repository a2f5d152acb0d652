/-
  Requests that the server cannot serve.

  The server checks an address from above only, and takes it for a signed number;
  the driver trusts the length it is given.  Both go wrong together exactly as
  stated below.
-/
import CcKernel.Device.DiskCalls

namespace CcKernel

open Duplex PyStr Blocks

variable {g : Geometry} {d : DiskState} {a : UInt32} {x buf : List UInt8} {n : ℕ}

/-- In every interleaving the call returns `r`; the server lives on in the state it
    was in, and nothing is left on its way in either direction. -/
def Rejected {α : Type} (g : Geometry) (p : Prog α) (d : DiskState) (r : α) : Prop :=
  Settles (Step (diskServer g)) ⟨p, [], [], .ok d⟩ ⟨.ret r, [], [], .ok d⟩

theorem rejected_iff {α : Type} {p : Prog α} {r : α} :
    Rejected g p d r ↔ Calls (diskServer g) p d r d := calls_iff_settles.symm

/-! ## Addresses -/

/-- A write and a read of the block `a` fail, without a trace. -/
def AddressRejected (g : Geometry) (d : DiskState) (a : UInt32) (x buf : List UInt8) : Prop :=
  Rejected g (diskWr a x g.blockLen) d diskFailure ∧
    Rejected g (diskRd a buf g.blockLen) d (diskFailure, buf)

/-- **An address after the last block is rejected if and only if it is below 2^31.** -/
theorem addressRejected_iff (ha : g.blockNum ≤ a.toNat) (hx : x.length = g.blockLen) :
    AddressRejected g d a x buf ↔ a.toNat < 2 ^ 31 := by
  constructor
  · rintro ⟨hw, -⟩
    by_contra hlt
    exact (hangs_diskWr_negative (by omega) hx).not_calls (rejected_iff.1 hw)
  · intro hlt
    have hge : (g.blockNum : ℤ) ≤ signed a := by
      rw [signed_of_lt hlt]
      exact_mod_cast ha
    refine ⟨rejected_iff.2 (calls_diskWr_rejected hx (g.ne_nil hx) (Or.inl hge)), rejected_iff.2 ?_⟩
    refine calls_diskRd_rejected _ ?_
    rw [acknowledge_rdLine, if_pos hge]

/-- Two blocks of two bytes. -/
def smallDisk : Geometry := ⟨2, 2, by decide, by decide, by decide, by decide⟩

theorem addressRejected_two : AddressRejected smallDisk ⟨[1, 2, 3, 4], []⟩ 2 [5, 6] [0, 0] :=
  (addressRejected_iff (by decide) rfl).2 (by decide)

/-- 2^31 is -2^31 to the server. -/
theorem not_addressRejected_high :
    smallDisk.blockNum ≤ (0x80000000 : UInt32).toNat ∧
      ¬ AddressRejected smallDisk ⟨[1, 2, 3, 4], []⟩ 0x80000000 [5, 6] [0, 0] := by
  refine ⟨by decide, ?_⟩
  rintro ⟨hw, -⟩
  have hh : Hangs (diskServer smallDisk) (diskWr 0x80000000 [5, 6] smallDisk.blockLen)
      ⟨[1, 2, 3, 4], []⟩ .osError := hangs_diskWr_negative (by decide) rfl
  exact hh.not_calls (rejected_iff.1 hw)

/-! ## Lengths -/

/-- Read what is left of a reply into the buffer. -/
def rdBuffer (x : List UInt8) (n : ℕ) : Prog (List UInt8) := do
  let _ ← pl011Getc
  let x ← dataGeth x n
  let _ ← pl011Getc
  return x

theorem receives_rdBuffer (x : List UInt8) (n : ℕ) : Receives (rdBuffer x n) (2 * n + 2) := by
  have h : Receives (rdBuffer x n) (1 + (2 * n + 1)) := receives_framed _ x n
  rwa [show 1 + (2 * n + 1) = 2 * n + 2 by omega] at h

theorem rdReceive_bind (x : List UInt8) (n : ℕ) :
    (rdReceive x n >>= fun r => .ret (some r)) =
      rdBuffer x n >>= fun y => .ret (some (diskSuccess, y)) := by
  unfold rdReceive rdBuffer
  simp only [bind_assoc, pure_bind]

/-- What follows the 00 in a reply with data. -/
def dataReply (data : List UInt8) : List UInt8 := space :: (hexlify data ++ [eol])

theorem length_dataReply (data : List UInt8) : (dataReply data).length = 2 * data.length + 2 := by
  rw [dataReply, List.length_cons, List.length_append, hexlify_length, List.length_singleton]

section
variable (buf) (ha : a.toNat < g.blockNum)
  (hb : (block g.blockLen d.file a.toNat).length = g.blockLen)
include ha hb

/-- The reply to a read from a block that is there, on its way to the driver. -/
theorem settle_rdRound :
    settle (diskServer g) (puts (rdLine a ++ [eol]) >>= fun _ => reply (rdReceive buf n)) [] []
        (.ok d) =
      settle (diskServer g) (rdBuffer buf n >>= fun y => .ret (some (diskSuccess, y))) []
        (dataReply (block g.blockLen d.file a.toNat)) (.ok d) := by
  have hack := acknowledge_rdLine_valid (d := d) ha
  rw [if_neg (not_not.2 hb)] at hack
  have hans : (diskServer g).answer d (rdLine a) = _ := Server.answer_ok (loopBody_ok hack)
  rw [settle_puts_line (eol_notMem_rdLine a), hans, ackString_data, List.nil_append, ← rdReceive_bind]
  have hy : Yields pl011Geth [chr '0', chr '0'] 0x00 := yields_geth 0x00
  exact settle_bind_ret (hy.settle [] _ (.ok d)) _

/-- A buffer that is too short is filled, and the rest of the reply left. -/
theorem settle_diskRd_short (hn : n < g.blockLen) :
    ∃ y rest, rest.length = 2 * (g.blockLen - n) ∧
      settle (diskServer g) (diskRd a buf n) [] [] (.ok d) =
        ⟨.ret (diskSuccess, y), [], rest, .ok d⟩ := by
  have hlen := length_dataReply (block g.blockLen d.file a.toNat)
  rw [hb] at hlen
  obtain ⟨y, hy⟩ : ∃ y, settle (diskServer g) (rdBuffer buf n) []
      (dataReply (block g.blockLen d.file a.toNat)) (.ok d) = ⟨.ret y, [], _, .ok d⟩ :=
    (receives_rdBuffer buf n).returns (by omega) [] (.ok d)
  refine ⟨y, (dataReply (block g.blockLen d.file a.toNat)).drop (2 * n + 2), ?_, ?_⟩
  · rw [List.length_drop, hlen]
    omega
  · rw [diskRd_eq]
    exact settle_bind_ret ((settle_rdRound buf ha hb).trans (settle_bind_ret hy _)) _

/-- A buffer that is too long is never filled. -/
theorem settle_diskRd_long (hn : g.blockLen < n) :
    ∃ k, settle (diskServer g) (diskRd a buf n) [] [] (.ok d) = ⟨.get k, [], [], .ok d⟩ := by
  have hlen := length_dataReply (block g.blockLen d.file a.toNat)
  rw [hb] at hlen
  obtain ⟨k, hk⟩ : ∃ k, settle (diskServer g) (rdBuffer buf n) []
      (dataReply (block g.blockLen d.file a.toNat)) (.ok d) = ⟨.get k, [], [], .ok d⟩ :=
    (receives_rdBuffer buf n).blocked (by omega) [] (.ok d)
  rw [diskRd_eq]
  exact ⟨_, settle_bind_get ((settle_rdRound buf ha hb).trans (settle_bind_get hk _)) _⟩

end

/-- A write and a read of `n` bytes fail, without a trace. -/
def LengthRejected (g : Geometry) (d : DiskState) (a : UInt32) (x buf : List UInt8) (n : ℕ) :
    Prop :=
  Rejected g (diskWr a x n) d diskFailure ∧ ∃ y, Rejected g (diskRd a buf n) d (diskFailure, y)

/-- **A wrong length is rejected by both calls if and only if there is data to
    write and the image ends before the block to read does.** -/
theorem lengthRejected_iff (ha : a.toNat < g.blockNum) (hx : x.length = n) (hn : n ≠ g.blockLen) :
    LengthRejected g d a x buf n ↔ 1 ≤ n ∧ d.file.length < (a.toNat + 1) * g.blockLen := by
  constructor
  · rintro ⟨hw, y, hr⟩
    refine ⟨?_, ?_⟩
    · by_contra h0
      obtain rfl : n = 0 := by omega
      obtain rfl : x = [] := List.length_eq_zero_iff.1 hx
      exact (hangs_diskWr_nil a).not_calls (rejected_iff.1 hw)
    · by_contra hlen
      have hb : (block g.blockLen d.file a.toNat).length = g.blockLen :=
        length_readAt (by rw [← Nat.succ_mul]; exact not_lt.1 hlen)
      have hr : settle _ _ _ _ _ = _ := rejected_iff.1 hr
      rcases Nat.lt_or_gt_of_ne hn with hlt | hgt
      · obtain ⟨y', rest, -, hs⟩ := settle_diskRd_short buf ha hb hlt
        rw [hs] at hr
        simp [diskSuccess, diskFailure] at hr
      · obtain ⟨k, hs⟩ := settle_diskRd_long buf ha hb hgt
        rw [hs] at hr
        simp at hr
  · rintro ⟨h1, hlen⟩
    have hne : x ≠ [] := by
      rintro rfl
      simp at hx
      omega
    refine ⟨rejected_iff.2 (calls_diskWr_rejected hx hne (Or.inr hn)), buf,
      rejected_iff.2 (calls_diskRd_rejected n ?_)⟩
    rw [Nat.succ_mul] at hlen
    have hshort : (block g.blockLen d.file a.toNat).length < g.blockLen :=
      length_readAt_lt hlen g.blockLen_pos
    rw [acknowledge_rdLine_valid ha, if_pos (Nat.ne_of_lt hshort)]

theorem lengthRejected_one : LengthRejected smallDisk ⟨[1, 2, 3], []⟩ 1 [5] [0] 1 :=
  (lengthRejected_iff (by decide) rfl (by decide)).2 ⟨le_rfl, by decide⟩

/-- A read of one byte of a block of two succeeds. -/
theorem not_lengthRejected_one :
    (1 : UInt32).toNat < smallDisk.blockNum ∧ 1 ≠ smallDisk.blockLen ∧
      ¬ LengthRejected smallDisk ⟨[1, 2, 3, 4], []⟩ 1 [5] [0] 1 := by
  refine ⟨by decide, by decide, ?_⟩
  rintro ⟨-, y, hr⟩
  have hr : settle _ _ _ _ _ = _ := rejected_iff.1 hr
  obtain ⟨y', rest, -, hs⟩ := settle_diskRd_short (g := smallDisk) (d := ⟨[1, 2, 3, 4], []⟩) [0]
    (a := 1) (n := 1) (by decide) rfl (by decide)
  rw [hs] at hr
  simp [diskSuccess, diskFailure] at hr

/-! ## Short writes -/

/-- A short write has taken its count from the list, since a missing one is a full one. -/
theorem osWrite_short {off : ℕ} (h : (osWrite off x d).1 ≠ x.length) :
    ∃ c cs, d.counts = c :: cs ∧ c < x.length ∧ (osWrite off x d).1 = c ∧
      (osWrite off x d).2.counts = cs := by
  rcases hcs : d.counts with _ | ⟨c, cs⟩
  · simp [osWrite, hcs] at h
  · have hlt : c < x.length := by
      by_contra hge
      simp only [osWrite, hcs, List.headD_cons] at h
      omega
    exact ⟨c, cs, rfl, hlt, by simp [osWrite, hcs, hlt.le], by simp [osWrite, hcs]⟩

/-- After `k` more rounds of `disk_wr`, of which the rounds before have written `m`
    bytes to the file `f`. -/
theorem calls_wrRounds (ha : a.toNat < g.blockNum) (hx : x.length = g.blockLen) {f : File}
    (hf : a.toNat * g.blockLen ≤ f.length) (k : ℕ) {m : ℕ}
    (hm : m < g.blockLen) (hd : d.file = writeAt f (a.toNat * g.blockLen) (x.take m)) :
    ∃ r d', Calls (diskServer g) (retry diskFailure
        (puts (wrLine a x ++ [eol]) >>= fun _ => reply wrReceive) k) d r d' ∧
      (r = diskSuccess ∧ d'.file = writeAt f (a.toNat * g.blockLen) x ∨
        r = diskFailure ∧ k ≤ d.counts.length ∧ (d.counts.take k).foldl max m < g.blockLen ∧
          d'.file = writeAt f (a.toNat * g.blockLen) (x.take ((d.counts.take k).foldl max m))) := by
  induction k generalizing d m with
  | zero => exact ⟨_, _, calls_retry_zero, Or.inr ⟨rfl, Nat.zero_le _, hm, hd⟩⟩
  | succ k ih =>
    have hround := calls_wrRound (d := d) ha hx
    have hfile : (osWrite (a.toNat * g.blockLen) x d).2.file =
        writeAt f (a.toNat * g.blockLen) (x.take (max m (osWrite (a.toNat * g.blockLen) x d).1)) := by
      rw [← writeAt_writeAt hf, ← hd]
      rfl
    split at hround
    · rename_i hn
      refine ⟨_, _, calls_retry_some hround, Or.inl ⟨rfl, ?_⟩⟩
      rw [hfile, hn, List.take_of_length_le (by omega)]
    · rename_i hn
      obtain ⟨c, cs, hc, hlt, hcount, htail⟩ := osWrite_short (by rwa [hx])
      rw [hx] at hlt
      rw [hcount] at hfile
      obtain ⟨r, d', hcalls, h⟩ := ih (Nat.max_lt.2 ⟨hm, hlt⟩) hfile
      refine ⟨r, d', calls_retry_none hround hcalls, ?_⟩
      rw [htail] at h
      rcases h with h | ⟨hr, hk, hlt', hfile'⟩
      · exact Or.inl h
      · rw [hc, List.take_succ_cons, List.foldl_cons, List.length_cons]
        exact Or.inr ⟨hr, Nat.succ_le_succ hk, hlt', hfile'⟩

/-- A write stores all of the data, or nothing if it fails. -/
def AllOrNothing (g : Geometry) (d : DiskState) (a : UInt32) (x : List UInt8) : Prop :=
  ∃ r d', Settles (Step (diskServer g)) ⟨diskWr a x g.blockLen, [], [], .ok d⟩
      ⟨.ret r, [], [], .ok d'⟩ ∧
    (r = diskSuccess → block g.blockLen d'.file a.toNat = x ∧
      ∀ b ≠ a.toNat, block g.blockLen d'.file b = block g.blockLen d.file b) ∧
    (r = diskFailure → d'.file = d.file)

/-- **A write that fails may have stored a first part of the data**, as much of it
    as the longest of the three writes to the file. -/
theorem diskWr_prefix (ha : a.toNat < g.blockNum) (hx : x.length = g.blockLen)
    (hf : a.toNat * g.blockLen ≤ d.file.length) :
    ∃ r d', Settles (Step (diskServer g)) ⟨diskWr a x g.blockLen, [], [], .ok d⟩
        ⟨.ret r, [], [], .ok d'⟩ ∧
      (∀ b ≠ a.toNat, block g.blockLen d'.file b = block g.blockLen d.file b) ∧
      (r = diskSuccess ∧ block g.blockLen d'.file a.toNat = x ∨
        r = diskFailure ∧ diskRetry ≤ d.counts.length ∧
          ∃ m < g.blockLen, m = (d.counts.take diskRetry).foldl max 0 ∧
            block g.blockLen d'.file a.toNat =
              x.take m ++ (block g.blockLen d.file a.toNat).drop m) := by
  have h0 : d.file = writeAt d.file (a.toNat * g.blockLen) (x.take 0) := by simp [writeAt]
  obtain ⟨r, d', hcalls, h⟩ := calls_wrRounds ha hx hf 3 g.blockLen_pos h0
  rw [← diskWr_eq a hx] at hcalls
  refine ⟨r, d', calls_iff_settles.1 hcalls, ?_, ?_⟩
  · intro b hb
    have hle (m : ℕ) : (x.take m).length ≤ g.blockLen := by simp [hx]
    rcases h with ⟨-, hfile⟩ | ⟨-, -, -, hfile⟩
    · rw [hfile]
      exact block_writeAt_other hb hx.le hf
    · rw [hfile]
      exact block_writeAt_other hb (hle _) hf
  · rcases h with ⟨hr, hfile⟩ | ⟨hr, hk, hlt, hfile⟩
    · refine Or.inl ⟨hr, ?_⟩
      have hb : (block g.blockLen d.file a.toNat).length ≤ g.blockLen := List.length_take_le _ _
      rw [hfile, block_writeAt_self hx.le hf, hx, List.drop_eq_nil_of_le hb, List.append_nil]
    · have hlen : (x.take ((d.counts.take 3).foldl max 0)).length =
          (d.counts.take 3).foldl max 0 := by
        rw [List.length_take, hx, Nat.min_eq_left hlt.le]
      refine Or.inr ⟨hr, hk, _, hlt, rfl, ?_⟩
      rw [hfile, block_writeAt_self (by omega) hf, hlen]

/-- One byte of two, three times. -/
theorem diskWr_prefix_one : ∃ r d', Settles (Step (diskServer smallDisk))
      ⟨diskWr 0 [7, 8] 2, [], [], .ok ⟨[1, 2, 3, 4], [1, 1, 1]⟩⟩ ⟨.ret r, [], [], .ok d'⟩ ∧
    (∀ b ≠ 0, block 2 d'.file b = block 2 [1, 2, 3, 4] b) ∧
      (r = diskSuccess ∧ block 2 d'.file 0 = [7, 8] ∨
        r = diskFailure ∧ 3 ≤ 3 ∧ ∃ m < 2, m = 1 ∧
          block 2 d'.file 0 = [7, 8].take m ++ [1, 2].drop m) :=
  diskWr_prefix (by decide) rfl (by decide)

theorem not_allOrNothing_one : ¬ AllOrNothing smallDisk ⟨[1, 2, 3, 4], [1, 1, 1]⟩ 0 [7, 8] := by
  rintro ⟨r, d', hset, -, hfailure⟩
  have hrun : Calls (diskServer smallDisk) (diskWr 0 [7, 8] 2) ⟨[1, 2, 3, 4], [1, 1, 1]⟩ diskFailure
      ⟨[7, 2, 3, 4], []⟩ := by
    unfold Calls
    rfl
  obtain ⟨rfl, rfl⟩ := hrun.unique (calls_iff_settles.2 hset)
  exact absurd (hfailure rfl) (by decide)

end CcKernel
