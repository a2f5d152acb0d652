/-
  The UART itself, and the driver one register access at a time.

  A thread of the driver polls `FR`, writes `DR` and reads `DR`; between any two
  accesses the device may send a byte from the transmit FIFO or put a received
  one into the receive FIFO.  `Uart.step` is one access or one step of the
  device.

  Blocking calls (f = true) behave as the programs of `PL011`: no byte is lost,
  and a thread that has returned has exchanged what `Duplex.run` computes.
-/
import CcKernel.Lib.Run
import CcKernel.Lib.Fifo
import CcKernel.Lib.Exchange
import CcKernel.Device.PL011

namespace CcKernel

open Duplex Lts

variable {α β : Type}

/-! ## Register accesses -/

/-- A thread that accesses the registers of a UART. -/
inductive Mmio (α : Type) where
  | ret (a : α)
  /-- `while( d->FR & mask );` -/
  | wait (mask : UInt32) (k : Mmio α)
  /-- `d->DR = x;` -/
  | write (x : UInt32) (k : Mmio α)
  /-- `d->DR` -/
  | read (k : UInt32 → Mmio α)

namespace Mmio

protected def bind : Mmio α → (α → Mmio β) → Mmio β
  | ret a, g => g a
  | wait mask k, g => wait mask (k.bind g)
  | write x k, g => write x (k.bind g)
  | read k, g => read fun w => (k w).bind g

instance : Monad Mmio where
  pure := ret
  bind := Mmio.bind

/-- `while( f && ( d->FR & mask ) );` -/
def poll (mask : UInt32) (f : Bool) : Mmio Unit := if f then wait mask (ret ()) else ret ()

def pl011Putc (x : UInt8) (f : Bool) : Mmio Unit := do
  poll 0x20 f
  write x.toUInt32 (ret ())

def pl011Getc (f : Bool) : Mmio UInt8 := do
  poll 0x10 f
  read fun r => ret r.toUInt8

def pl011Puth (x : UInt8) (f : Bool) : Mmio Unit := do
  pl011Putc (itox ((x >>> 4) &&& 0xF).toNat) f
  pl011Putc (itox ((x >>> 0) &&& 0xF).toNat) f

def pl011Geth (f : Bool) : Mmio UInt8 := do
  let r := UInt8.ofInt (xtoi (← pl011Getc f) * 2 ^ 4)
  return r ||| UInt8.ofInt (xtoi (← pl011Getc f) * 2 ^ 0)

end Mmio

/-- The calls a thread makes, each of which may depend on what earlier ones
    have returned. -/
inductive Driver (α : Type) where
  | ret (a : α)
  | putc (x : UInt8) (k : Driver α)
  | puth (x : UInt8) (k : Driver α)
  | getc (k : UInt8 → Driver α)
  | geth (k : UInt8 → Driver α)

/-- The accesses the calls make. -/
def Driver.mmio (f : Bool) : Driver α → Mmio α
  | ret a => .ret a
  | putc x k => do Mmio.pl011Putc x f; k.mmio f
  | puth x k => do Mmio.pl011Puth x f; k.mmio f
  | getc k => do (k (← Mmio.pl011Getc f)).mmio f
  | geth k => do (k (← Mmio.pl011Geth f)).mmio f

/-- The bytes the calls exchange. -/
def Driver.prog : Driver α → Prog α
  | ret a => .ret a
  | putc x k => do pl011Putc x; k.prog
  | puth x k => do pl011Puth x; k.prog
  | getc k => do (k (← pl011Getc)).prog
  | geth k => do (k (← pl011Geth)).prog

/-! ## The device -/

/-- A thread and its UART, with FIFOs of `n` and `m` bytes; `written` and
    `returned` are the bytes of the accesses to `DR` so far, `sent` and
    `received` those on the line. -/
structure Uart (n m : ℕ) (α : Type) where
  thread : Mmio α
  tx : Fifo UInt8 n
  rx : Fifo UInt8 m
  written : List UInt8
  sent : List UInt8
  received : List UInt8
  returned : List UInt8

inductive UartEvent where
  /-- the thread reads `fr` from `FR` -/
  | poll (fr : UInt32)
  /-- the thread writes to `DR` -/
  | write
  /-- the thread reads `dr` from `DR` -/
  | read (dr : UInt32)
  /-- the oldest byte of the transmit FIFO is sent -/
  | drain
  /-- `b` is received -/
  | receive (b : UInt8)

namespace Uart

variable {n m : ℕ}

def start (p : Mmio α) : Uart n m α := ⟨p, .empty, .empty, [], [], [], []⟩

/-- What a read of `FR` may return: the other bits are not looked at. -/
def Flags (s : Uart n m α) (fr : UInt32) : Prop :=
  (fr &&& 0x20 ≠ 0 ↔ s.tx.Full) ∧ (fr &&& 0x10 ≠ 0 ↔ s.rx.Empty)

instance (s : Uart n m α) (fr : UInt32) : Decidable (s.Flags fr) :=
  inferInstanceAs (Decidable ((_ ↔ _) ∧ (_ ↔ _)))

def step (s : Uart n m α) : UartEvent → Option (Uart n m α)
  | .poll fr =>
    match s.thread with
    | .wait mask k =>
      if s.Flags fr then some { s with thread := if fr &&& mask ≠ 0 then .wait mask k else k }
      else none
    | _ => none
  | .write =>
    match s.thread with
    | .write x k =>
      some { s with
        thread := k, tx := s.tx.push x.toUInt8, written := s.written ++ [x.toUInt8] }
    | _ => none
  | .read dr =>
    match s.thread with
    | .read k =>
      match s.rx.pop with
      | some (b, rx) =>
        -- the upper bits are error flags, which are not looked at
        if dr.toUInt8 = b then
          some { s with thread := k dr, rx := rx, returned := s.returned ++ [b] }
        else none
      | none => some { s with thread := k dr, returned := s.returned ++ [dr.toUInt8] }
    | _ => none
  | .drain => s.tx.pop.map fun r => { s with tx := r.2, sent := s.sent ++ [r.1] }
  | .receive b =>
    if s.rx.Full then none
    else some { s with rx := s.rx.push b, received := s.received ++ [b] }

variable {s t : Uart n m α}

theorem step_poll {fr : UInt32} : s.step (.poll fr) = some t ↔ ∃ mask k, s.thread = .wait mask k ∧
    s.Flags fr ∧ t = { s with thread := if fr &&& mask ≠ 0 then s.thread else k } := by
  unfold step
  rcases hs : s.thread with a | ⟨mask, k⟩ | ⟨x, k⟩ | k <;> simp [eq_comm]

theorem step_write : s.step .write = some t ↔ ∃ x k, s.thread = .write x k ∧
    t = { s with
      thread := k, tx := s.tx.push x.toUInt8, written := s.written ++ [x.toUInt8] } := by
  unfold step
  rcases hs : s.thread with a | ⟨mask, k⟩ | ⟨x, k⟩ | k <;> simp [eq_comm]

theorem step_read {dr : UInt32} : s.step (.read dr) = some t ↔ ∃ k, s.thread = .read k ∧
    ((∃ rx, s.rx.pop = some (dr.toUInt8, rx) ∧
        t = { s with thread := k dr, rx := rx, returned := s.returned ++ [dr.toUInt8] }) ∨
      (s.rx.Empty ∧ t = { s with thread := k dr, returned := s.returned ++ [dr.toUInt8] })) := by
  rw [← Fifo.pop_eq_none]
  unfold step
  rcases hs : s.thread with a | ⟨mask, k⟩ | ⟨x, k⟩ | k
  · simp
  · simp
  · simp
  · rcases hp : s.rx.pop with _ | ⟨b, rx⟩
    · simp [eq_comm]
    · by_cases hb : dr.toUInt8 = b
      · subst hb
        simp [eq_comm]
      · simp [hb, Ne.symm hb]

theorem step_drain : s.step .drain = some t ↔ ∃ b tx, s.tx.pop = some (b, tx) ∧
    t = { s with tx := tx, sent := s.sent ++ [b] } := by
  simp [step, eq_comm]

theorem step_receive {b : UInt8} : s.step (.receive b) = some t ↔ ¬ s.rx.Full ∧
    t = { s with rx := s.rx.push b, received := s.received ++ [b] } := by
  simp [step, eq_comm]

end Uart

/-! ## The accesses of the calls -/

/-- The accesses that exchange the bytes of a program. -/
def issue : Prog α → Mmio α
  | .ret a => .ret a
  | .put b k => .wait 0x20 (.write b.toUInt32 (issue k))
  | .get k => .wait 0x10 (.read fun r => issue (k r.toUInt8))

theorem issue_eq_ret {q : Prog α} {a : α} (h : issue q = .ret a) : q = .ret a := by
  rcases q with a' | ⟨b, k⟩ | k
  · rw [Mmio.ret.inj h]
  · cases h
  · cases h

/-- With f = true every byte is polled for. -/
theorem mmio_true (d : Driver α) : d.mmio true = issue d.prog := by
  induction d with
  | ret a => rfl
  | putc x k ih =>
    show Mmio.wait 0x20 (.write x.toUInt32 (k.mmio true)) = _
    rw [ih]
    rfl
  | puth x k ih =>
    show Mmio.wait 0x20 (.write _ (.wait 0x20 (.write _ (k.mmio true)))) = _
    rw [ih]
    rfl
  | getc k ih =>
    show Mmio.wait 0x10 (.read fun r => (k r.toUInt8).mmio true) = _
    simp only [ih]
    rfl
  | geth k ih =>
    show Mmio.wait 0x10 (.read fun r => .wait 0x10 (.read fun r' => (k _).mmio true)) = _
    simp only [ih]
    rfl

namespace Uart

variable {n m : ℕ} {s t : Uart n m α} {p q : Prog α}

/-- The thread is about to poll for the next byte of `q`, or has done so: the
    device cannot take back what the flags have told. -/
inductive At (s : Uart n m α) : Prog α → Prop
  | poll {r : Prog α} : s.thread = issue r → At s r
  | put {b k} : s.thread = .write b.toUInt32 (issue k) → ¬ s.tx.Full → At s (.put b k)
  | get {k} : s.thread = .read (fun r => issue (k r.toUInt8)) → ¬ s.rx.Empty → At s (.get k)

theorem At.put_of (h : s.At q) {x : UInt32} {k : Mmio α} (hs : s.thread = .write x k) :
    ∃ b q', q = .put b q' ∧ x = b.toUInt32 ∧ k = issue q' ∧ ¬ s.tx.Full := by
  rcases h with hp | ⟨hp, hf⟩ | ⟨hp, he⟩
  · rw [hs] at hp
    rcases q with a | ⟨b, q'⟩ | q' <;> cases hp
  · obtain ⟨rfl, rfl⟩ := Mmio.write.inj (hs.symm.trans hp)
    exact ⟨_, _, rfl, rfl, rfl, hf⟩
  · cases hs.symm.trans hp

theorem At.get_of (h : s.At q) {k : UInt32 → Mmio α} (hs : s.thread = .read k) :
    ∃ q', q = .get q' ∧ (k = fun r => issue (q' r.toUInt8)) ∧ ¬ s.rx.Empty := by
  rcases h with hp | ⟨hp, hf⟩ | ⟨hp, he⟩
  · rw [hs] at hp
    rcases q with a | ⟨b, q'⟩ | q' <;> cases hp
  · cases hs.symm.trans hp
  · exact ⟨_, rfl, Mmio.read.inj (hs.symm.trans hp), he⟩

theorem At.ret_of (h : s.At q) {a : α} (hs : s.thread = .ret a) : q = .ret a := by
  rcases h with hp | ⟨hp, hf⟩ | ⟨hp, he⟩
  · exact issue_eq_ret (hp.symm.trans hs)
  · cases hs.symm.trans hp
  · cases hs.symm.trans hp

theorem At.wait_of (h : s.At q) {mask : UInt32} {k : Mmio α} (hs : s.thread = .wait mask k) :
    s.thread = issue q := by
  rcases h with hp | ⟨hp, hf⟩ | ⟨hp, he⟩
  · exact hp
  · cases hs.symm.trans hp
  · cases hs.symm.trans hp

/-- **The invariant**: the thread has come as far as `q` in `p`, and neither
    FIFO has lost a byte. -/
structure Serves (p : Prog α) (s : Uart n m α) (q : Prog α) : Prop where
  at_next : s.At q
  tx : s.tx.Carries s.written s.sent
  rx : s.rx.Carries s.received s.returned
  run_eq : ∀ d, run p (s.returned ++ d) = (run q d).map (.after s.written)

theorem serves_start (p : Prog α) : Serves p (start (issue p) : Uart n m α) p where
  at_next := .poll rfl
  tx := .empty
  rx := .empty
  run_eq _ := Option.map_id'.symm

/-- What is to come is the exchange of `q` with the bytes that are still unread. -/
theorem Serves.run_rest (h : Serves p s q) {more : List UInt8} {e : Exchange α}
    (he : run p (s.received ++ more) = some e) :
    ∃ e', run q (s.rx.items ++ more) = some e' ∧ e'.after s.written = e := by
  have hrx : s.returned ++ s.rx.items = s.received := h.rx
  rw [← hrx, List.append_assoc, h.run_eq] at he
  exact Option.map_eq_some_iff.1 he

/-- What the flags tell stays true until the thread acts on it. -/
theorem Serves.poll (h : Serves p s q) {fr : UInt32} (hs : s.step (.poll fr) = some t) :
    Serves p t q := by
  obtain ⟨mask, k, hw, ⟨htx, hrx⟩, rfl⟩ := step_poll.1 hs
  have hq := h.at_next.wait_of hw
  refine ⟨?_, h.tx, h.rx, h.run_eq⟩
  by_cases hbit : fr &&& mask = 0
  · rw [if_neg (not_not.2 hbit)]
    rcases q with a | ⟨b, q'⟩ | q'
    · cases hw.symm.trans hq
    · obtain ⟨rfl, rfl⟩ := Mmio.wait.inj (hw.symm.trans hq)
      exact .put rfl fun hf => htx.2 hf hbit
    · obtain ⟨rfl, rfl⟩ := Mmio.wait.inj (hw.symm.trans hq)
      exact .get rfl fun he => hrx.2 he hbit
  · rw [if_pos hbit]
    exact .poll hq

theorem Serves.write (h : Serves p s q) (hs : s.step .write = some t) :
    ∃ b k, q = .put b k ∧ Serves p t k := by
  obtain ⟨x, k, hw, rfl⟩ := step_write.1 hs
  obtain ⟨b, k, rfl, rfl, rfl, hf⟩ := h.at_next.put_of hw
  rw [UInt8.toUInt8_toUInt32]
  refine ⟨b, k, rfl, .poll rfl, h.tx.push hf b, h.rx, fun d => ?_⟩
  rw [h.run_eq, run_put, map_after]

theorem Serves.read (h : Serves p s q) {dr : UInt32} (hs : s.step (.read dr) = some t) :
    ∃ k, q = .get k ∧ Serves p t (k dr.toUInt8) := by
  obtain ⟨k, hr, hcases⟩ := step_read.1 hs
  obtain ⟨k, rfl, rfl, hrx⟩ := h.at_next.get_of hr
  rcases hcases with ⟨rx, hpop, rfl⟩ | ⟨hempty, -⟩
  · refine ⟨k, rfl, .poll rfl, h.tx, h.rx.pop hpop, fun d => ?_⟩
    rw [List.append_assoc, h.run_eq]
    rfl
  · exact absurd hempty hrx

/-- There is only more room. -/
theorem Serves.drain (h : Serves p s q) (hs : s.step .drain = some t) : Serves p t q := by
  obtain ⟨b, tx, hpop, rfl⟩ := step_drain.1 hs
  refine ⟨?_, h.tx.pop hpop, h.rx, h.run_eq⟩
  rcases h.at_next with hp | ⟨hp, hf⟩ | ⟨hp, he⟩
  · exact .poll hp
  · exact .put hp (Fifo.not_full_of_pop hpop)
  · exact .get hp he

/-- There is only more to read. -/
theorem Serves.receive (h : Serves p s q) {b : UInt8} (hs : s.step (.receive b) = some t) :
    Serves p t q := by
  obtain ⟨hroom, rfl⟩ := step_receive.1 hs
  refine ⟨?_, h.tx, h.rx.push hroom b, h.run_eq⟩
  rcases h.at_next with hp | ⟨hp, hf⟩ | ⟨hp, he⟩
  · exact .poll hp
  · exact .put hp hf
  · exact .get hp (Fifo.not_empty_push hroom b)

/-- The thread has come somewhere in `p`. -/
def Served (p : Prog α) (s : Uart n m α) : Prop := ∃ q, Serves p s q

theorem Served.step (h : Served p s) {e : UartEvent} (hs : s.step e = some t) : Served p t := by
  obtain ⟨q, hq⟩ := h
  cases e with
  | poll fr => exact ⟨q, hq.poll hs⟩
  | write =>
    obtain ⟨b, k, -, hk⟩ := hq.write hs
    exact ⟨k, hk⟩
  | read dr =>
    obtain ⟨k, -, hk⟩ := hq.read hs
    exact ⟨_, hk⟩
  | drain => exact ⟨q, hq.drain hs⟩
  | receive b => exact ⟨q, hq.receive hs⟩

/-- Whatever the device does in between, the thread makes the exchange of `p`. -/
theorem served_of_visits {es : List UartEvent}
    (h : Visits Uart.step (start (issue p) : Uart n m α) es t) : Served p t := by
  refine h.invariant (P := fun _ _ => True) ?_ ?_ ⟨p, serves_start p⟩
  · intro s e s' _ hs hstep
    exact hs.step hstep
  · intro s e s' _
    trivial

end Uart

/-- **Blocking calls are lossless and in order**: in every state a run goes
    through, a thread about to write `DR` finds room and one about to read it a
    byte; what has been written is what has been sent and what is to be sent,
    what has been received is what has been read and what is to be read; what has
    been written is the beginning of what `d.prog` sends, and calls that have
    returned have made its exchange. -/
theorem uart_lossless {n m : ℕ} (d : Driver α) {es : List UartEvent} {t : Uart n m α}
    (h : Visits Uart.step (Uart.start (d.mmio true)) es t) :
    (∀ x k, t.thread = .write x k → ¬ t.tx.Full) ∧ (∀ k, t.thread = .read k → ¬ t.rx.Empty) ∧
      t.sent ++ t.tx.items = t.written ∧ t.returned ++ t.rx.items = t.received ∧
      (∀ more e, run d.prog (t.received ++ more) = some e → t.written <+: e.sent) ∧
      ∀ a, t.thread = .ret a → run d.prog t.received = some ⟨a, t.written, t.rx.items⟩ := by
  rw [mmio_true] at h
  obtain ⟨q, hq⟩ := Uart.served_of_visits h
  refine ⟨?_, ?_, hq.tx, hq.rx, ?_, ?_⟩
  · intro x k hw
    obtain ⟨b, q', -, -, -, hf⟩ := hq.at_next.put_of hw
    exact hf
  · intro k hr
    obtain ⟨q', -, -, he⟩ := hq.at_next.get_of hr
    exact he
  · intro more e he
    obtain ⟨e', -, rfl⟩ := hq.run_rest he
    exact List.prefix_append _ _
  · intro a ha
    obtain rfl := hq.at_next.ret_of ha
    have hrun := hq.run_eq t.rx.items
    rw [hq.rx, run_ret, Option.map_some, Exchange.after, List.append_nil] at hrun
    exact hrun

/-- A schedule of two bytes out and two bytes in through FIFOs of one byte, in
    which the thread finds a flag set twice. -/
def oneByteFifos : List UartEvent :=
  [.poll 0x10, .write, .poll 0x30, .drain, .poll 0x10, .write, .poll 0x30, .receive (PyStr.chr '3'),
    .poll 0x20, .read 0x533, .drain, .poll 0x10, .receive (PyStr.chr 'c'), .poll 0, .read 0x63]

theorem uart_lossless_puth_geth : ∃ t : Uart 1 1 UInt8,
    Visits Uart.step (Uart.start (Driver.mmio true (.puth 0x5A (.geth .ret)))) oneByteFifos t ∧
      t.sent ++ t.tx.items = t.written ∧ t.returned ++ t.rx.items = t.received ∧
      t.written = hexByte 0x5A ∧ t.thread = .ret 0x3C := by
  obtain ⟨t, hr, hw, ht⟩ : ∃ t : Uart 1 1 UInt8, Lts.run Uart.step
      (Uart.start (Driver.mmio true (.puth 0x5A (.geth .ret)))) oneByteFifos = some t ∧
      t.written = hexByte 0x5A ∧ t.thread = .ret 0x3C := ⟨_, rfl, rfl, rfl⟩
  have hv := visits_of_run hr []
  rw [List.append_nil] at hv
  obtain ⟨-, -, htx, hrx, -, -⟩ := uart_lossless _ hv
  exact ⟨t, hv, htx, hrx, hw, ht⟩

/-- Without blocking a byte is lost. -/
example : ∃ t : Uart 1 1 Unit, Lts.run Uart.step
    (Uart.start (Driver.mmio false (.putc 1 (.putc 2 (.ret ()))))) [.write, .write] = some t ∧
      t.sent ++ t.tx.items ≠ t.written := ⟨_, rfl, by decide⟩

/-! ## No call waits for ever -/

namespace Uart

variable {n m : ℕ} {s t : Uart n m α} {p q : Prog α}

/-- The flags, with no other bit set. -/
def flags (s : Uart n m α) : UInt32 :=
  (if s.tx.Full then 0x20 else 0) ||| (if s.rx.Empty then 0x10 else 0)

theorem flags_flags (s : Uart n m α) : s.Flags s.flags := by
  unfold Flags flags
  split_ifs with hf he he <;> simp only [hf, he] <;> decide

/-- A poll that finds the flag clear goes on to the access. -/
theorem step_pass {mask : UInt32} {k : Mmio α} (hw : s.thread = .wait mask k)
    (hclear : ¬ s.flags &&& mask ≠ 0) : s.step (.poll s.flags) = some { s with thread := k } := by
  refine step_poll.2 ⟨mask, k, hw, s.flags_flags, ?_⟩
  rw [if_neg hclear]

theorem Serves.pass_put {b : UInt8} {k : Prog α} (h : Serves p s (.put b k)) (hf : ¬ s.tx.Full) :
    ∃ t, Reaches Uart.step s t ∧ Serves p t (.put b k) ∧
      t.thread = .write b.toUInt32 (issue k) ∧ t.rx = s.rx := by
  cases h.at_next with
  | poll hp =>
    have hs := step_pass hp (mt s.flags_flags.1.1 hf)
    exact ⟨_, .head hs (.refl _), h.poll hs, rfl, rfl⟩
  | put hp _ => exact ⟨s, .refl s, h, hp, rfl⟩

theorem Serves.pass_get {k : UInt8 → Prog α} (h : Serves p s (.get k)) (he : ¬ s.rx.Empty) :
    ∃ t, Reaches Uart.step s t ∧ Serves p t (.get k) ∧
      (t.thread = .read fun r => issue (k r.toUInt8)) ∧ t.rx = s.rx := by
  cases h.at_next with
  | poll hp =>
    have hs := step_pass hp (mt s.flags_flags.2.1 he)
    exact ⟨_, .head hs (.refl _), h.poll hs, rfl, rfl⟩
  | get hp _ => exact ⟨s, .refl s, h, hp, rfl⟩

/-- The device makes room by sending. -/
theorem Serves.room (hn : 1 ≤ n) (h : Serves p s q) :
    ∃ t, Reaches Uart.step s t ∧ Serves p t q ∧ ¬ t.tx.Full ∧ t.rx = s.rx := by
  by_cases hf : s.tx.Full
  · obtain ⟨b, tx, hpop⟩ := Fifo.exists_pop (mt (Fifo.not_full_of_empty hn) (not_not.2 hf))
    have hs := step_drain.2 ⟨b, tx, hpop, rfl⟩
    exact ⟨_, .head hs (.refl _), h.drain hs, Fifo.not_full_of_pop hpop, rfl⟩
  · exact ⟨s, .refl s, h, hf, rfl⟩

/-- The line supplies the next byte. -/
theorem Serves.supply (hm : 1 ≤ m) (h : Serves p s q) {more : List UInt8}
    (hne : s.rx.items ++ more ≠ []) : ∃ t more', Reaches Uart.step s t ∧ Serves p t q ∧
      ¬ t.rx.Empty ∧ t.rx.items ++ more' = s.rx.items ++ more := by
  by_cases he : s.rx.Empty
  · have hroom := Fifo.not_full_of_empty hm he
    rcases more with _ | ⟨b, more⟩
    · exact absurd (by rw [List.append_nil]; exact he) hne
    · have hs := (step_receive (b := b)).2 ⟨hroom, rfl⟩
      refine ⟨_, more, .head hs (.refl _), h.receive hs, Fifo.not_empty_push hroom b, ?_⟩
      rw [Fifo.items_push hroom, List.append_assoc, List.singleton_append]
  · exact ⟨s, more, .refl s, h, he, rfl⟩

theorem Serves.completes (hn : 1 ≤ n) (hm : 1 ≤ m) (h : Serves p s q) {more : List UInt8}
    {e : Exchange α} (he : run q (s.rx.items ++ more) = some e) :
    ∃ t, Reaches Uart.step s t ∧ t.thread = .ret e.result := by
  induction q generalizing s more e with
  | ret a =>
    cases he
    cases h.at_next with
    | poll hp => exact ⟨s, .refl s, hp⟩
  | put b k ih =>
    obtain ⟨s₁, hr₁, h₁, hf, hrx₁⟩ := h.room hn
    obtain ⟨s₂, hr₂, h₂, hw, hrx₂⟩ := h₁.pass_put hf
    have hs := step_write.2 ⟨_, _, hw, rfl⟩
    obtain ⟨b', k', hq, h₃⟩ := h₂.write hs
    obtain ⟨rfl, rfl⟩ := Prog.put.inj hq
    rw [← hrx₁, ← hrx₂] at he
    obtain ⟨e', he', rfl⟩ := Option.map_eq_some_iff.1 he
    obtain ⟨t, hr, ht⟩ := ih h₃ he'
    exact ⟨t, hr₁.trans (hr₂.trans (.head hs hr)), ht⟩
  | get k ih =>
    have hne : s.rx.items ++ more ≠ [] := by
      intro hnil
      rw [hnil] at he
      cases he
    obtain ⟨s₁, more₁, hr₁, h₁, hnonempty, hitems⟩ := h.supply hm hne
    obtain ⟨s₂, hr₂, h₂, hw, hrx₂⟩ := h₁.pass_get hnonempty
    rw [← hrx₂] at hnonempty hitems
    obtain ⟨b, rx, hpop⟩ := Fifo.exists_pop hnonempty
    have hb : b.toUInt32.toUInt8 = b := UInt8.toUInt8_toUInt32 b
    have hs := step_read.2 ⟨_, hw, Or.inl ⟨rx, by rw [hb]; exact hpop, rfl⟩⟩
    obtain ⟨k', hq, h₃⟩ := h₂.read hs
    obtain rfl := Prog.get.inj hq
    rw [← hitems, Fifo.pop_eq_some.1 hpop, ← hb] at he
    obtain ⟨t, hr, ht⟩ := ih _ h₃ he
    exact ⟨t, hr₁.trans (hr₂.trans (.head hs hr)), ht⟩

end Uart

/-- **Calls return as soon as the line lets them**: from every state a run has
    come to, if the bytes to come are enough for the calls to return, there is a
    way on to where they have returned. -/
theorem uart_completes {n m : ℕ} (hn : 1 ≤ n) (hm : 1 ≤ m) (d : Driver α) {es : List UartEvent}
    {t : Uart n m α} (h : Visits Uart.step (Uart.start (d.mmio true)) es t) {more : List UInt8}
    {e : Exchange α} (he : run d.prog (t.received ++ more) = some e) :
    ∃ u, Reaches Uart.step t u ∧ u.thread = .ret e.result := by
  rw [mmio_true] at h
  obtain ⟨q, hq⟩ := Uart.served_of_visits h
  obtain ⟨e', he', rfl⟩ := hq.run_rest he
  obtain ⟨u, hr, hu⟩ := hq.completes hn hm he'
  exact ⟨u, hr, hu⟩

/-- With FIFOs of one byte, from the start. -/
theorem uart_completes_puth_geth : ∃ u : Uart 1 1 UInt8, Reaches Uart.step
    (Uart.start (Driver.mmio true (.puth 0x5A (.geth .ret)))) u ∧ u.thread = .ret 0x3C := by
  have hv : Visits Uart.step (Uart.start (Driver.mmio true (.puth 0x5A (.geth .ret))) :
      Uart 1 1 UInt8) [] _ := .here _ []
  have he : run (Driver.prog (.puth 0x5A (.geth .ret))) ([] ++ [PyStr.chr '3', PyStr.chr 'c']) =
      some ⟨0x3C, hexByte 0x5A, []⟩ := rfl
  exact uart_completes le_rfl le_rfl _ hv he

end CcKernel
