/-
  Sessions of writes of any length and reads of a block, over UARTs.

  `Store` is what driver and server are to a caller who passes valid addresses
  and whole blocks only, and while `os.write` stores all it is given.  A `Disk`
  knows the counts that `os.write` is going to return as well, and answers every
  call: it is rejected, it stores a first part of the data, or it is the
  server's last.

  Every session of such calls comes to what the disk answers, on every fair run
  through UARTs of any size.
-/
import CcKernel.Device.DiskErrors
import CcKernel.Device.DiskStore
import CcKernel.Device.Link

namespace CcKernel

open Duplex Lts PyStr Blocks

variable {g : Geometry}

/-- A call of the driver; `disk_wr` is passed the length of its data, `disk_rd`
    a buffer for a block. -/
inductive DriverCall (g : Geometry) where
  | getBlockNum
  | getBlockLen
  | wr (a : UInt32) (x : List UInt8)
  | rd (a : UInt32) (x : Block g)

namespace DriverCall

def run : DriverCall g → Prog DiskResult
  | getBlockNum => do return .int (← diskGetBlockNum)
  | getBlockLen => do return .int (← diskGetBlockLen)
  | wr a x => do return .int (← diskWr a x x.length)
  | rd a x => do
    let (r, x) ← diskRd a x g.blockLen
    return .data r x

def runAll : List (DriverCall g) → Prog (List DiskResult)
  | [] => return []
  | c :: cs => do
    let r ← c.run
    let rs ← runAll cs
    return r :: rs

end DriverCall

/-! ## The disk -/

/-- `n` bytes of `x`, and the rest of `y`. -/
def overwrite (x y : Block g) (n : ℕ) : Block g :=
  ⟨x.1.take n ++ y.1.drop n, by
    rw [List.length_append, List.length_take, List.length_drop, x.2, y.2]
    omega⟩

structure Disk (g : Geometry) where
  store : Store g
  counts : List ℕ

namespace Disk

/-- How many bytes of `x` are stored, and the disk after that. -/
def write (s : Disk g) (a : Addr g) (x : Block g) : ℕ × Disk g :=
  let n := min (s.counts.headD g.blockLen) g.blockLen
  (n, ⟨Function.update s.store a (overwrite x (s.store a) n), s.counts.tail⟩)

/-- Up to `k` writes, until one is complete. -/
def writes (a : Addr g) (x : Block g) : ℕ → Disk g → ℤ × Disk g
  | 0, s => (diskFailure, s)
  | k + 1, s =>
    if (s.write a x).1 = g.blockLen then (diskSuccess, (s.write a x).2)
    else writes a x k (s.write a x).2

def wr (s : Disk g) (a : UInt32) (x : List UInt8) : Except Exn (DiskResult × Disk g) :=
  if hx : x.length = g.blockLen then
    if ha : a.toNat < g.blockNum then
      let (r, s) := writes ⟨a, ha⟩ ⟨x, hx⟩ diskRetry s
      .ok (.int r, s)
    else if a.toNat < 2 ^ 31 then .ok (.int diskFailure, s)
    else .error .osError
  else if x = [] then .error .indexError
  else .ok (.int diskFailure, s)

def rd (s : Disk g) (a : UInt32) (x : Block g) : Except Exn (DiskResult × Disk g) :=
  if ha : a.toNat < g.blockNum then .ok (.data diskSuccess (s.store ⟨a, ha⟩), s)
  else if a.toNat < 2 ^ 31 then .ok (.data diskFailure x, s)
  else .error .osError

/-- What a call returns and the disk after it, or the exception that it raises
    in the server. -/
def serve (s : Disk g) : DriverCall g → Except Exn (DiskResult × Disk g)
  | .getBlockNum => .ok (.int g.blockNum, s)
  | .getBlockLen => .ok (.int g.blockLen, s)
  | .wr a x => s.wr a x
  | .rd a x => s.rd a x

/-- Calls one after the other, up to the server's last. -/
def serveAll (s : Disk g) : List (DriverCall g) → Except Exn (List DiskResult × Disk g)
  | [] => .ok ([], s)
  | c :: cs => do
    let (r, s) ← s.serve c
    let (rs, s) ← s.serveAll cs
    return (r :: rs, s)

/-- The server holds the disk. -/
def Held (s : Disk g) (d : DiskState) : Prop :=
  ∃ im : DiskImage g, d = ⟨im.file, s.counts⟩ ∧ im.store = s.store

end Disk

/-! ## One call -/

namespace DiskImage

/-- The image after `n` bytes of a write. -/
def writeFirst (im : DiskImage g) (a : Addr g) (x : Block g) {n : ℕ} (hn : n ≤ g.blockLen) :
    DiskImage g :=
  ⟨writeAt im.file (a.1.toNat * g.blockLen) (x.1.take n), by
    have hle := im.block_le a
    rw [length_writeAt (by rw [List.length_take, x.2]; omega), im.length_eq]⟩

theorem store_writeFirst (im : DiskImage g) (a : Addr g) (x : Block g) {n : ℕ}
    (hn : n ≤ g.blockLen) : (im.writeFirst a x hn).store =
      Function.update im.store a (overwrite x (im.store a) n) := by
  have hlen : (x.1.take n).length = n := by rw [List.length_take, x.2, Nat.min_eq_left hn]
  funext b
  apply Subtype.ext
  show block g.blockLen (writeAt im.file (a.1.toNat * g.blockLen) (x.1.take n)) b.1.toNat = _
  rw [Function.update_apply]
  split
  · rename_i hb
    subst hb
    rw [block_writeAt_self (by omega) (Nat.le_of_add_right_le (im.block_le b)), hlen]
    rfl
  · rename_i hb
    have hne : b.1.toNat ≠ a.1.toNat := fun h => hb (Subtype.ext (UInt32.toNat_inj.1 h))
    exact block_writeAt_other hne (by omega) (Nat.le_of_add_right_le (im.block_le a))

end DiskImage

namespace Disk

variable {s s' : Disk g} {d : DiskState} {a : UInt32}

/-- `os.write` is a write to the disk. -/
theorem Held.write (h : s.Held d) (a : Addr g) (x : Block g) :
    (osWrite (a.1.toNat * g.blockLen) x d).1 = (s.write a x).1 ∧
      (s.write a x).2.Held (osWrite (a.1.toNat * g.blockLen) x d).2 := by
  obtain ⟨im, rfl, hstore⟩ := h
  have hn : min (s.counts.headD g.blockLen) g.blockLen ≤ g.blockLen := Nat.min_le_right _ _
  have hw := im.store_writeFirst a x hn
  rw [hstore] at hw
  unfold osWrite
  rw [x.2]
  exact ⟨rfl, im.writeFirst a x hn, rfl, hw⟩

/-- `disk_wr` writes until a write is complete. -/
theorem Held.writes (h : s.Held d) (a : Addr g) (x : Block g) (k : ℕ) :
    ∃ d', Calls (diskServer g) (retry diskFailure
        (puts (wrLine a x ++ [eol]) >>= fun _ => reply wrReceive) k) d (writes a x k s).1 d' ∧
      (writes a x k s).2.Held d' := by
  induction k generalizing s d with
  | zero => exact ⟨d, calls_retry_zero, h⟩
  | succ k ih =>
    obtain ⟨hcount, hheld⟩ := h.write a x
    have hround := calls_wrRound (d := d) a.2 x.2
    rw [hcount] at hround
    unfold writes
    split
    · rename_i hn
      rw [if_pos hn] at hround
      exact ⟨_, calls_retry_some hround, hheld⟩
    · rename_i hn
      rw [if_neg hn] at hround
      obtain ⟨d', hcalls, hd'⟩ := ih hheld
      exact ⟨d', calls_retry_none hround hcalls, hd'⟩

theorem Held.block (h : s.Held d) (a : Addr g) :
    block g.blockLen d.file a.1.toNat = s.store a := by
  obtain ⟨im, rfl, hstore⟩ := h
  rw [← hstore]
  rfl

/-- A valid address, one that is rejected, or one that the server takes for
    negative. -/
theorem address_cases (g : Geometry) (a : UInt32) : a.toNat < g.blockNum ∨
    (g.blockNum : ℤ) ≤ signed a ∧ ¬ a.toNat < g.blockNum ∧ a.toNat < 2 ^ 31 ∨
    2 ^ 31 ≤ a.toNat ∧ ¬ a.toNat < g.blockNum ∧ ¬ a.toNat < 2 ^ 31 := by
  have hlt := g.blockNum_lt
  by_cases ha : a.toNat < 2 ^ 31
  · rw [signed_of_lt ha]
    omega
  · omega

/-- What a disk answers, the driver's function returns; what ends the server, it
    waits for. -/
def Answers (d : DiskState) {β : Type} (p : Prog β) : Except Exn (β × Disk g) → Prop
  | .ok (r, s) => ∃ d', Calls (diskServer g) p d r d' ∧ s.Held d'
  | .error e => Hangs (diskServer g) p d e

theorem Held.wr (h : s.Held d) (a : UInt32) (x : List UInt8) :
    Answers d (DriverCall.wr (g := g) a x).run (s.wr a x) := by
  unfold Disk.wr
  by_cases hx : x.length = g.blockLen
  · rw [dif_pos hx]
    rcases address_cases g a with ha | ⟨hge, ha, hlt⟩ | ⟨hge, ha, hlt⟩
    · rw [dif_pos ha]
      obtain ⟨d', hcalls, hd'⟩ := h.writes ⟨a, ha⟩ ⟨x, hx⟩ diskRetry
      have hwr : Calls (diskServer g) (diskWr a x x.length) d
          (Disk.writes ⟨a, ha⟩ ⟨x, hx⟩ diskRetry s).1 d' := by
        rw [diskWr_eq a rfl]
        exact hcalls
      exact ⟨d', hwr.bind (Calls.ret _ _), hd'⟩
    · rw [dif_neg ha, if_pos hlt]
      have hcalls := calls_diskWr_rejected (d := d) rfl (g.ne_nil hx) (Or.inl hge)
      exact ⟨d, hcalls.bind (Calls.ret _ _), h⟩
    · rw [dif_neg ha, if_neg hlt]
      have hhangs := hangs_diskWr_negative (d := d) hge hx
      rw [← hx] at hhangs
      exact hhangs.bind _
  · rw [dif_neg hx]
    by_cases hnil : x = []
    · rw [if_pos hnil]
      subst hnil
      exact (hangs_diskWr_nil a).bind _
    · rw [if_neg hnil]
      have hcalls := calls_diskWr_rejected (d := d) (a := a) rfl hnil (Or.inr hx)
      exact ⟨d, hcalls.bind (Calls.ret _ _), h⟩

theorem Held.rd (h : s.Held d) (a : UInt32) (x : Block g) :
    Answers d (DriverCall.rd a x).run (s.rd a x) := by
  unfold Disk.rd
  have hack := acknowledge_rdLine (g := g) (d := d) a
  rcases address_cases g a with ha | ⟨hge, ha, hlt⟩ | ⟨hge, ha, hlt⟩
  · rw [dif_pos ha]
    have hb : Blocks.block g.blockLen d.file a.toNat = s.store ⟨a, ha⟩ := h.block ⟨a, ha⟩
    have hcalls := calls_diskRd (d := d) ha x.2 (by rw [hb]; exact (s.store ⟨a, ha⟩).2)
    rw [hb] at hcalls
    exact ⟨d, hcalls.bind (Calls.ret _ _), h⟩
  · rw [dif_neg ha, if_pos hlt]
    rw [if_pos hge] at hack
    exact ⟨d, (calls_diskRd_rejected _ hack).bind (Calls.ret _ _), h⟩
  · rw [dif_neg ha, if_neg hlt]
    exact (hangs_diskRd_negative _ hge).bind _

/-- **One call.** -/
theorem Held.serve (h : s.Held d) (c : DriverCall g) : Answers d c.run (s.serve c) := by
  cases c with
  | getBlockNum => exact ⟨d, (calls_diskGetBlockNum g d).bind (Calls.ret _ _), h⟩
  | getBlockLen => exact ⟨d, (calls_diskGetBlockLen g d).bind (Calls.ret _ _), h⟩
  | wr a x => exact h.wr a x
  | rd a x => exact h.rd a x

theorem Held.serveAll (h : s.Held d) (cs : List (DriverCall g)) :
    Answers d (DriverCall.runAll cs) (s.serveAll cs) := by
  induction cs generalizing s d with
  | nil => exact ⟨d, Calls.ret _ _, h⟩
  | cons c cs ih =>
    have hc := h.serve c
    unfold Disk.serveAll
    rcases hserve : s.serve c with e | ⟨r, s₁⟩
    · rw [hserve] at hc
      exact Hangs.bind hc _
    · rw [hserve] at hc
      obtain ⟨d₁, hcall, h₁⟩ := hc
      have hcs := ih h₁
      show Answers d _ ((s₁.serveAll cs).bind fun (rs, s) => .ok (r :: rs, s))
      rcases hrest : s₁.serveAll cs with e | ⟨rs, s₂⟩
      · rw [hrest] at hcs
        exact hcall.hangs (Hangs.bind hcs _)
      · rw [hrest] at hcs
        obtain ⟨d₂, hcalls, h₂⟩ := hcs
        exact ⟨d₂, hcall.bind (hcalls.bind (Calls.ret _ _)), h₂⟩

end Disk

/-! ## Over UARTs -/

variable {n m : ℕ}

/-- **Over UARTs of any size, every fair run of a session comes to what the disk
    answers**: the results, an image that holds the disk and not a byte on its
    way, or a thread that polls for ever because a call has ended the server. -/
theorem disk_over_uarts (hn : 1 ≤ n) (hm : 1 ≤ m) (im : DiskImage g) (counts : List ℕ)
    (cs : List (DriverCall g))
    {tr : Trace (Link.step (diskServer g) : Link n m Exn DiskState (List DiskResult) → _)}
    (h₀ : tr.state 0 = Link.start (DriverCall.runAll cs) ⟨im.file, counts⟩) (hf : Link.Fair tr) :
    ∃ i, tr.RestsAt i ∧
      (∀ rs s', Disk.serveAll ⟨im.store, counts⟩ cs = .ok (rs, s') →
        (tr.state i).uart.thread = .ret rs ∧ (∃ im' : DiskImage g, im'.store = s'.store ∧
          (tr.state i).server = .ok ⟨im'.file, s'.counts⟩) ∧
        (tr.state i).toServer = [] ∧ (tr.state i).uart.tx.items = [] ∧
          (tr.state i).uart.rx.items = [] ∧ (tr.state i).toUart = []) ∧
      ∀ e, Disk.serveAll ⟨im.store, counts⟩ cs = .error e →
        (tr.state i).server = .error e ∧ ∃ k, (tr.state i).uart.thread = .wait 0x10 k := by
  have hheld : Disk.Held ⟨im.store, counts⟩ ⟨im.file, counts⟩ := ⟨im, rfl, rfl⟩
  have hall := hheld.serveAll cs
  obtain ⟨i, hrest, hfollows⟩ := link_settles hn hm _ _ h₀ hf
  refine ⟨i, hrest, ?_, ?_⟩
  · intro rs s' hs
    rw [hs] at hall
    obtain ⟨d', hcalls, im', rfl, hstore⟩ := hall
    rw [show settle _ _ _ _ _ = _ from hcalls] at hfollows
    obtain ⟨hline, htx⟩ := List.append_eq_nil_iff.1 hfollows.toServer.symm
    obtain ⟨hrx, hback⟩ := List.append_eq_nil_iff.1 hfollows.toProg.symm
    refine ⟨?_, ⟨im', hstore, hfollows.server.symm⟩, hline, htx, hrx, hback⟩
    cases hfollows.serves.at_next with
    | poll hthread => exact hthread
  · intro e hs
    rw [hs] at hall
    obtain ⟨k, hk⟩ := hall
    rw [hk] at hfollows
    refine ⟨hfollows.server.symm, ?_⟩
    obtain ⟨hrx, -⟩ := List.append_eq_nil_iff.1 hfollows.toProg.symm
    cases hfollows.serves.at_next with
    | poll hthread => exact ⟨_, hthread⟩
    | get _ hne => exact absurd hrx hne

/-- A write whose first round stores one byte of two, a read of the block and a
    read that is rejected. -/
def threeCalls : List (DriverCall smallDisk) :=
  [.wr 1 [5, 6], .rd 1 ⟨[0, 0], rfl⟩, .rd 7 ⟨[0, 0], rfl⟩]

def fourBytes : DiskImage smallDisk := ⟨[1, 2, 3, 4], rfl⟩

theorem disk_over_uarts_three :
    let tr := Trace.play (Link.step (diskServer smallDisk)) Link.turn
      (Link.start (DriverCall.runAll threeCalls) ⟨fourBytes.file, [1]⟩ : Link 1 1 _ _ _)
    ∃ i, tr.RestsAt i ∧ (tr.state i).uart.thread =
      .ret [.int diskSuccess, .data diskSuccess [5, 6], .data diskFailure [0, 0]] := by
  obtain ⟨s', hs'⟩ : ∃ s', Disk.serveAll ⟨fourBytes.store, [1]⟩ threeCalls =
      .ok ([.int diskSuccess, .data diskSuccess [5, 6], .data diskFailure [0, 0]], s') :=
    ⟨_, rfl⟩
  obtain ⟨i, hrest, hok, -⟩ :=
    disk_over_uarts le_rfl le_rfl fourBytes [1] threeCalls rfl (Link.fair_play _)
  exact ⟨i, hrest, (hok _ _ hs').1⟩

end CcKernel
