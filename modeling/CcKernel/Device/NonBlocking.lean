/-
  The UART under any accesses, as those of calls with f = false.

  A write to `DR` that finds the transmit FIFO full is lost, and a read of it
  that finds the receive FIFO empty returns something that has not been
  received.  Nothing else goes wrong: whatever a thread does, the line carries
  its bytes in order, and all of them exactly if no access has found its FIFO
  so.  `PL011_can_putc` and `PL011_can_getc` tell a thread in advance.
-/
import CcKernel.Device.Uart

namespace CcKernel

open Duplex Lts

variable {α : Type} {n m : ℕ}

/-! ## Accesses that come to nothing -/

/-- A write that finds room, and any other event. -/
def KeepsTx (s : Uart n m α) : UartEvent → Prop
  | .write => ¬ s.tx.Full
  | _ => True

/-- A read that finds a byte, and any other event. -/
def KeepsRx (s : Uart n m α) : UartEvent → Prop
  | .read _ => ¬ s.rx.Empty
  | _ => True

namespace Uart

variable {s t : Uart n m α} {e : UartEvent} {es : List UartEvent}

/-- The bytes on the line and in the FIFOs are among those of the accesses, in
    their order. -/
structure InOrder (s : Uart n m α) : Prop where
  tx : (s.sent ++ s.tx.items).Sublist s.written
  rx : ∃ taken, taken.Sublist s.returned ∧ taken ++ s.rx.items = s.received

theorem inOrder_start (p : Mmio α) : InOrder (start p : Uart n m α) where
  tx := List.Sublist.refl _
  rx := ⟨[], List.Sublist.refl _, rfl⟩

theorem InOrder.step (h : s.InOrder) (hs : s.step e = some t) : t.InOrder := by
  obtain ⟨htx, taken, htaken, hrx⟩ := h
  cases e with
  | poll fr =>
    obtain ⟨mask, k, -, -, rfl⟩ := step_poll.1 hs
    exact ⟨htx, taken, htaken, hrx⟩
  | write =>
    obtain ⟨x, k, -, rfl⟩ := step_write.1 hs
    refine ⟨?_, taken, htaken, hrx⟩
    by_cases hf : s.tx.Full
    · have hpush : s.tx.push x.toUInt8 = s.tx := dif_pos hf
      simp only [hpush]
      exact htx.trans (List.sublist_append_left _ _)
    · simp only [Fifo.items_push hf, ← List.append_assoc]
      exact htx.append (List.Sublist.refl _)
  | read dr =>
    obtain ⟨k, -, ⟨rx, hpop, rfl⟩ | ⟨-, rfl⟩⟩ := step_read.1 hs
    · refine ⟨htx, taken ++ [dr.toUInt8], htaken.append (List.Sublist.refl _), ?_⟩
      rw [← hrx, Fifo.pop_eq_some.1 hpop, List.append_assoc, List.singleton_append]
    · exact ⟨htx, taken, htaken.trans (List.sublist_append_left _ _), hrx⟩
  | drain =>
    obtain ⟨b, tx, hpop, rfl⟩ := step_drain.1 hs
    refine ⟨?_, taken, htaken, hrx⟩
    rwa [Fifo.pop_eq_some.1 hpop, ← List.singleton_append, ← List.append_assoc] at htx
  | receive b =>
    obtain ⟨hroom, rfl⟩ := step_receive.1 hs
    refine ⟨htx, taken, htaken, ?_⟩
    simp only [Fifo.items_push hroom, ← List.append_assoc, hrx]

/-- A byte that is lost is never made up for. -/
theorem InOrder.carries_tx (h : s.InOrder) (hs : s.step e = some t) :
    t.tx.Carries t.written t.sent ↔ s.tx.Carries s.written s.sent ∧ KeepsTx s e := by
  unfold Fifo.Carries
  cases e with
  | poll fr =>
    obtain ⟨mask, k, -, -, rfl⟩ := step_poll.1 hs
    simp [KeepsTx]
  | write =>
    obtain ⟨x, k, -, rfl⟩ := step_write.1 hs
    by_cases hf : s.tx.Full
    · have hpush : s.tx.push x.toUInt8 = s.tx := dif_pos hf
      simp only [hpush, KeepsTx, hf, not_true_eq_false, and_false, iff_false]
      intro heq
      have hlen := h.tx.length_le
      rw [heq] at hlen
      simp at hlen
    · simp only [Fifo.items_push hf, ← List.append_assoc, KeepsTx, hf, not_false_eq_true, and_true]
      exact List.append_left_inj _
  | read dr =>
    obtain ⟨k, -, ⟨rx, -, rfl⟩ | ⟨-, rfl⟩⟩ := step_read.1 hs
    · simp [KeepsTx]
    · simp [KeepsTx]
  | drain =>
    obtain ⟨b, tx, hpop, rfl⟩ := step_drain.1 hs
    simp [KeepsTx, Fifo.pop_eq_some.1 hpop]
  | receive b =>
    obtain ⟨-, rfl⟩ := step_receive.1 hs
    simp [KeepsTx]

/-- A byte that has not been received is never made up for. -/
theorem InOrder.carries_rx (h : s.InOrder) (hs : s.step e = some t) :
    t.rx.Carries t.received t.returned ↔ s.rx.Carries s.received s.returned ∧ KeepsRx s e := by
  unfold Fifo.Carries
  cases e with
  | poll fr =>
    obtain ⟨mask, k, -, -, rfl⟩ := step_poll.1 hs
    simp [KeepsRx]
  | write =>
    obtain ⟨x, k, -, rfl⟩ := step_write.1 hs
    simp [KeepsRx]
  | read dr =>
    obtain ⟨k, -, ⟨rx, hpop, rfl⟩ | ⟨hempty, rfl⟩⟩ := step_read.1 hs
    · have hne : ¬ s.rx.Empty := by
        rw [← Fifo.pop_eq_none, hpop]
        simp
      simp [KeepsRx, hne, Fifo.pop_eq_some.1 hpop]
    · simp only [KeepsRx, hempty, not_true_eq_false, and_false, iff_false]
      obtain ⟨-, taken, htaken, hrx⟩ := h
      have hitems : s.rx.items = [] := hempty
      rw [hitems, List.append_nil] at hrx
      rw [hitems, ← hrx]
      intro heq
      have hlen := htaken.length_le
      rw [← heq] at hlen
      simp at hlen
  | drain =>
    obtain ⟨b, tx, -, rfl⟩ := step_drain.1 hs
    simp [KeepsRx]
  | receive b =>
    obtain ⟨hroom, rfl⟩ := step_receive.1 hs
    simp only [Fifo.items_push hroom, ← List.append_assoc, KeepsRx, and_true]
    exact List.append_left_inj _

theorem inOrder_run {p : Mmio α} (h : Lts.run Uart.step (start p : Uart n m α) es = some t) :
    t.InOrder :=
  run_invariant (E := fun _ => True) (fun _ _ _ _ hs hstep => hs.step hstep) h
    (fun _ _ => trivial) (inOrder_start p)

end Uart

/-- **What may be lost, and when**: whatever accesses a thread makes, blocking or
    not, the bytes on the line and in the FIFO are among those it has written, in
    their order, and the bytes received are among those its reads have returned,
    and those to be read; it is all of them exactly if no write has found the
    FIFO full, and no read has found it empty. -/
theorem uart_in_order (p : Mmio α) {es : List UartEvent} {t : Uart n m α}
    (h : Lts.run Uart.step (Uart.start p) es = some t) :
    (t.sent ++ t.tx.items).Sublist t.written ∧
      (∃ taken, taken.Sublist t.returned ∧ taken ++ t.rx.items = t.received) ∧
      (t.sent ++ t.tx.items = t.written ↔
        AllSteps Uart.step (Uart.start p : Uart n m α) es KeepsTx) ∧
      (t.returned ++ t.rx.items = t.received ↔
        AllSteps Uart.step (Uart.start p : Uart n m α) es KeepsRx) := by
  have hstart := Uart.inOrder_start (n := n) (m := m) p
  have hstep : ∀ (s : Uart n m α) e s', s.InOrder → s.step e = some s' → s'.InOrder :=
    fun _ _ _ hs hstep => hs.step hstep
  have htx := good_iff hstep (fun _ _ _ hs hstep => hs.carries_tx hstep) h hstart
  have hrx := good_iff hstep (fun _ _ _ hs hstep => hs.carries_rx hstep) h hstart
  obtain ⟨hsub, hpop⟩ := Uart.inOrder_run h
  refine ⟨hsub, hpop, ?_, ?_⟩
  · refine htx.trans (and_iff_right ?_)
    exact Fifo.Carries.empty
  · refine hrx.trans (and_iff_right ?_)
    exact Fifo.Carries.empty

/-- Two bytes written at once to a FIFO of one, and a read of nothing. -/
theorem uart_in_order_putc : ∃ t : Uart 1 1 UInt8, Lts.run Uart.step
      (Uart.start (Driver.mmio false (.putc 1 (.putc 2 (.getc .ret))))) [.write, .write, .read 7] =
        some t ∧
      (t.sent ++ t.tx.items).Sublist t.written ∧ t.sent ++ t.tx.items ≠ t.written := by
  obtain ⟨t, hr, hne⟩ : ∃ t : Uart 1 1 UInt8, Lts.run Uart.step
      (Uart.start (Driver.mmio false (.putc 1 (.putc 2 (.getc .ret))))) [.write, .write, .read 7] =
        some t ∧ t.sent ++ t.tx.items ≠ t.written := ⟨_, rfl, by decide⟩
  exact ⟨t, hr, (uart_in_order _ hr).1, hne⟩

/-! ## `PL011_can_putc` and `PL011_can_getc` -/

/-- `!( d->FR & 0x20 )` -/
def pl011CanPutc (fr : UInt32) : Bool := fr &&& 0x20 == 0

/-- `!( d->FR & 0x10 )` -/
def pl011CanGetc (fr : UInt32) : Bool := fr &&& 0x10 == 0

namespace UartEvent

def IsWrite : UartEvent → Prop
  | write => True
  | _ => False

def IsRead : UartEvent → Prop
  | read _ => True
  | _ => False

def IsReceive : UartEvent → Prop
  | receive _ => True
  | _ => False

def IsDrain : UartEvent → Prop
  | drain => True
  | _ => False

end UartEvent

namespace Uart

variable {s t : Uart n m α} {e : UartEvent} {fr : UInt32}

theorem Flags.canPutc (h : s.Flags fr) : pl011CanPutc fr ↔ ¬ s.tx.Full := by
  rw [← h.1]
  simp [pl011CanPutc]

theorem Flags.canGetc (h : s.Flags fr) : pl011CanGetc fr ↔ ¬ s.rx.Empty := by
  rw [← h.2]
  simp [pl011CanGetc]

/-- Only a write takes room, only the device makes some; only a read takes bytes,
    only the line brings some. -/
theorem flags_step (hs : s.step e = some t) :
    (¬ e.IsWrite → ¬ s.tx.Full → ¬ t.tx.Full) ∧ (¬ e.IsDrain → s.tx.Full → t.tx.Full) ∧
      (¬ e.IsRead → ¬ s.rx.Empty → ¬ t.rx.Empty) ∧
      (¬ e.IsReceive → s.rx.Empty → t.rx.Empty) := by
  cases e with
  | poll fr =>
    obtain ⟨mask, k, -, -, rfl⟩ := step_poll.1 hs
    simp
  | write =>
    obtain ⟨x, k, -, rfl⟩ := step_write.1 hs
    refine ⟨fun h => absurd trivial h, fun _ hf => ?_, by simp, by simp⟩
    have hpush : s.tx.push x.toUInt8 = s.tx := dif_pos hf
    show (s.tx.push x.toUInt8).Full
    rwa [hpush]
  | read dr =>
    obtain ⟨k, -, ⟨rx, hpop, rfl⟩ | ⟨-, rfl⟩⟩ := step_read.1 hs
    · refine ⟨by simp, by simp, fun h => absurd trivial h, fun _ he => ?_⟩
      rw [Fifo.pop_eq_none.2 he] at hpop
      cases hpop
    · simp
  | drain =>
    obtain ⟨b, tx, hpop, rfl⟩ := step_drain.1 hs
    exact ⟨fun _ _ => Fifo.not_full_of_pop hpop, fun h => absurd trivial h, by simp, by simp⟩
  | receive b =>
    obtain ⟨hroom, rfl⟩ := step_receive.1 hs
    exact ⟨by simp, by simp, fun _ _ => Fifo.not_empty_push hroom b, fun h => absurd trivial h⟩

end Uart

/-- **What `PL011_can_putc` and `PL011_can_getc` tell stays true**: until the thread
    writes, a byte can be written, and until it reads, one can be read, whatever
    the device does; and if they tell the opposite and nothing is sent, or
    received, the write comes to nothing, or the read has nothing to return. -/
theorem can_putc_getc {s t u : Uart n m α} {fr : UInt32} {es : List UartEvent} (hfr : s.Flags fr)
    (hr : Lts.run Uart.step s es = some t) :
    (t.step .write = some u →
      (pl011CanPutc fr → (∀ e ∈ es, ¬ e.IsWrite) →
        ∃ b, u.written = t.written ++ [b] ∧ u.tx.items = t.tx.items ++ [b]) ∧
      (¬ pl011CanPutc fr → (∀ e ∈ es, ¬ e.IsDrain) → u.tx = t.tx)) ∧
    ∀ dr, t.step (.read dr) = some u →
      (pl011CanGetc fr → (∀ e ∈ es, ¬ e.IsRead) → t.rx.items = dr.toUInt8 :: u.rx.items) ∧
      (¬ pl011CanGetc fr → (∀ e ∈ es, ¬ e.IsReceive) → t.rx.Empty ∧ u.rx = t.rx) := by
  rw [hfr.canPutc, hfr.canGetc, not_not, not_not]
  constructor
  · intro hs
    obtain ⟨x, k, -, rfl⟩ := Uart.step_write.1 hs
    constructor
    · intro hf hes
      have ht : ¬ t.tx.Full :=
        run_invariant (E := fun e => ¬ UartEvent.IsWrite e)
          (fun _ _ _ he hf hs => (Uart.flags_step hs).1 he hf) hr hes hf
      exact ⟨_, rfl, Fifo.items_push ht _⟩
    · intro hf hes
      have ht : t.tx.Full :=
        run_invariant (E := fun e => ¬ UartEvent.IsDrain e)
          (fun _ _ _ he hf hs => (Uart.flags_step hs).2.1 he hf) hr hes hf
      exact dif_pos ht
  · intro dr hs
    obtain ⟨k, -, ⟨rx, hpop, rfl⟩ | ⟨hempty, rfl⟩⟩ := Uart.step_read.1 hs
    · refine ⟨fun _ _ => Fifo.pop_eq_some.1 hpop, fun he hes => ?_⟩
      have ht : t.rx.Empty :=
        run_invariant (E := fun e => ¬ UartEvent.IsReceive e)
          (fun _ _ _ he hf hs => (Uart.flags_step hs).2.2.2 he hf) hr hes he
      rw [Fifo.pop_eq_none.2 ht] at hpop
      cases hpop
    · refine ⟨fun he hes => ?_, fun _ _ => ⟨hempty, rfl⟩⟩
      have ht : ¬ t.rx.Empty :=
        run_invariant (E := fun e => ¬ UartEvent.IsRead e)
          (fun _ _ _ he hf hs => (Uart.flags_step hs).2.2.1 he hf) hr hes he
      exact absurd hempty ht

/-- A byte is received between `PL011_can_putc` and `PL011_putc`. -/
theorem can_putc_getc_start : ∃ t u : Uart 1 1 UInt8, Lts.run Uart.step
      (Uart.start (Driver.mmio false (.putc 1 (.getc .ret)))) [.receive 9] = some t ∧
    t.step .write = some u ∧
      ∃ b, u.written = t.written ++ [b] ∧ u.tx.items = t.tx.items ++ [b] := by
  obtain ⟨t, u, hr, hs⟩ : ∃ t u : Uart 1 1 UInt8, Lts.run Uart.step
      (Uart.start (Driver.mmio false (.putc 1 (.getc .ret)))) [.receive 9] = some t ∧
        t.step .write = some u := ⟨_, _, rfl, rfl⟩
  have hfr : (Uart.start (Driver.mmio false (.putc 1 (.getc .ret))) : Uart 1 1 UInt8).Flags
      0x10 := by
    decide
  have hes : ∀ e ∈ [UartEvent.receive 9], ¬ e.IsWrite := by simp [UartEvent.IsWrite]
  exact ⟨t, u, hr, hs, ((can_putc_getc hfr hr).1 hs).1 rfl hes⟩

end CcKernel
