/-
  Driver, UART, line and server together.

  `Duplex.Step` connects a program and a server by a byte channel.  Here the
  channel is what the code has: the thread polls `FR` and accesses `DR`, the two
  FIFOs of the UART hold a few bytes, the line carries them, and the server
  reads complete lines from it.  `Link.step` is one access, one step of the
  device or one turn of the server.

  The link refines the channel: a run of one is a run of the other, in which
  the polls and the steps of the device change nothing.  If nobody is held up
  for ever it ends as `Duplex.settle` computes.
-/
import CcKernel.Lib.Fair
import CcKernel.Device.Uart

namespace CcKernel

open Duplex Lts

variable {ε σ α β : Type} {n m : ℕ}

/-! ## Lines -/

/-- The line that `sd.readline()` takes from the stream, without its end. -/
def readline (u : List UInt8) : List UInt8 := u.takeWhile (· ≠ eol)

def unread (u : List UInt8) : List UInt8 := (u.dropWhile (· ≠ eol)).tail

theorem eol_not_mem_readline (u : List UInt8) : eol ∉ readline u := by
  intro h
  have := List.mem_takeWhile_imp h
  simp at this

theorem readline_append {u : List UInt8} (h : eol ∈ u) :
    readline u ++ eol :: unread u = u := by
  unfold readline unread
  induction u with
  | nil => simp at h
  | cons b u ih =>
    by_cases hb : b = eol
    · subst hb
      simp
    · have hu : eol ∈ u := by simpa [Ne.symm hb] using h
      simpa [hb] using ih hu

/-! ## Accesses -/

/-- The accesses of a function are those of its calls, one after the other. -/
theorem issue_bind (p : Prog α) (f : α → Prog β) :
    issue (p >>= f) = issue p >>= fun a => issue (f a) := by
  induction p with
  | ret a => rfl
  | put b k ih =>
    show Mmio.wait 0x20 (.write _ (issue (k >>= f))) = _
    rw [ih]
    rfl
  | get k ih =>
    show Mmio.wait 0x10 (.read fun r => issue (k r.toUInt8 >>= f)) = _
    simp only [ih]
    rfl

theorem issue_putc (x : UInt8) : issue (pl011Putc x) = Mmio.pl011Putc x true := rfl

theorem issue_getc : issue pl011Getc = Mmio.pl011Getc true := rfl

def Mmio.waits : Mmio α → ℕ
  | wait _ _ => 1
  | _ => 0

theorem Mmio.waits_le (q : Mmio α) : q.waits ≤ 1 := by
  cases q <;> simp [waits]

/-! ## The link -/

structure Link (n m : ℕ) (ε σ α : Type) where
  uart : Uart n m α
  toServer : List UInt8
  toUart : List UInt8
  server : Except ε σ

inductive LinkEvent where
  /-- the thread reads `fr` from `FR` -/
  | poll (fr : UInt32)
  /-- the thread writes to `DR` -/
  | write
  /-- the thread reads `dr` from `DR` -/
  | read (dr : UInt32)
  /-- a byte leaves the transmit FIFO -/
  | drain
  /-- a byte arrives in the receive FIFO -/
  | receive
  /-- the server answers a line -/
  | serve

namespace LinkEvent

def OfThread : LinkEvent → Prop
  | poll _ | write | read _ => True
  | _ => False

end LinkEvent

namespace Link

def start (p : Prog α) (st : σ) : Link n m ε σ α := ⟨.start (issue p), [], [], .ok st⟩

def step (srv : Server ε σ) (s : Link n m ε σ α) : LinkEvent → Option (Link n m ε σ α)
  | .poll fr => (s.uart.step (.poll fr)).map fun u => { s with uart := u }
  | .write => (s.uart.step .write).map fun u => { s with uart := u }
  | .read dr => (s.uart.step (.read dr)).map fun u => { s with uart := u }
  | .drain => s.uart.tx.pop.bind fun r =>
    (s.uart.step .drain).map fun u => { s with uart := u, toServer := s.toServer ++ [r.1] }
  | .receive => s.toUart.head?.bind fun b =>
    (s.uart.step (.receive b)).map fun u => { s with uart := u, toUart := s.toUart.tail }
  | .serve =>
    match s.server with
    | .ok st =>
      if eol ∈ s.toServer then
        let (reply, server) := srv.answer st (readline s.toServer)
        some { s with
          toServer := unread s.toServer, toUart := s.toUart ++ reply, server := server }
      else none
    | .error _ => none

variable {srv : Server ε σ} {s t : Link n m ε σ α}

theorem step_poll {fr : UInt32} : s.step srv (.poll fr) = some t ↔
    ∃ u, s.uart.step (.poll fr) = some u ∧ t = { s with uart := u } := by
  simp [step, eq_comm]

theorem step_write : s.step srv .write = some t ↔
    ∃ u, s.uart.step .write = some u ∧ t = { s with uart := u } := by
  simp [step, eq_comm]

theorem step_read {dr : UInt32} : s.step srv (.read dr) = some t ↔
    ∃ u, s.uart.step (.read dr) = some u ∧ t = { s with uart := u } := by
  simp [step, eq_comm]

theorem step_drain : s.step srv .drain = some t ↔ ∃ b tx u, s.uart.tx.pop = some (b, tx) ∧
    s.uart.step .drain = some u ∧ t = { s with uart := u, toServer := s.toServer ++ [b] } := by
  rcases hp : s.uart.tx.pop with _ | ⟨b, tx⟩ <;> simp [step, hp, eq_comm]

theorem step_receive : s.step srv .receive = some t ↔ ∃ b rest u, s.toUart = b :: rest ∧
    s.uart.step (.receive b) = some u ∧ t = { s with uart := u, toUart := rest } := by
  rcases hd : s.toUart with _ | ⟨b, rest⟩ <;> simp [step, hd, eq_comm]

theorem step_serve : s.step srv .serve = some t ↔ ∃ st, s.server = .ok st ∧ eol ∈ s.toServer ∧
    t = { s with
      toServer := unread s.toServer,
      toUart := s.toUart ++ (srv.answer st (readline s.toServer)).1,
      server := (srv.answer st (readline s.toServer)).2 } := by
  rcases hs : s.server with e | st <;> simp [step, hs, eq_comm]

/-! ## The link refines the channel -/

variable {p : Prog α} {S : Sys ε σ α}

/-- The channel holds what is in the FIFO and on the line. -/
structure Follows (p : Prog α) (s : Link n m ε σ α) (S : Sys ε σ α) : Prop where
  serves : s.uart.Serves p S.prog
  toServer : S.toServer = s.toServer ++ s.uart.tx.items
  toProg : S.toProg = s.uart.rx.items ++ s.toUart
  server : S.server = s.server

theorem follows_start (p : Prog α) (st : σ) :
    Follows p (start p st : Link n m ε σ α) ⟨p, [], [], .ok st⟩ where
  serves := Uart.serves_start p
  toServer := rfl
  toProg := rfl
  server := rfl

/-- A poll finds the flag set, or is the last one before the access. -/
theorem Follows.poll (h : Follows p s S) {fr : UInt32} (hs : s.step srv (.poll fr) = some t) :
    t = s ∨ t.uart.tx = s.uart.tx ∧ t.uart.rx = s.uart.rx ∧ s.uart.thread.waits = 1 ∧
      t.uart.thread.waits = 0 ∧ Follows p t S := by
  obtain ⟨u, hu, rfl⟩ := step_poll.1 hs
  have hserves := h.serves.poll hu
  obtain ⟨mask, k, hw, -, rfl⟩ := Uart.step_poll.1 hu
  by_cases hbit : fr &&& mask = 0
  · right
    rw [if_neg (not_not.2 hbit)] at hserves ⊢
    refine ⟨rfl, rfl, by rw [hw]; rfl, ?_, hserves, h.toServer, h.toProg, h.server⟩
    have hq := hw.symm.trans (h.serves.at_next.wait_of hw)
    rcases hprog : S.prog with a | ⟨b, q⟩ | q
    · rw [hprog] at hq
      cases hq
    · rw [hprog] at hq
      cases hq
      rfl
    · rw [hprog] at hq
      cases hq
      rfl
  · left
    rw [if_pos hbit]

theorem Follows.write (h : Follows p s S) (hs : s.step srv .write = some t) :
    ∃ b k, S.prog = .put b k ∧ t.uart.tx.items = s.uart.tx.items ++ [b] ∧
      t.uart.rx = s.uart.rx ∧
      Follows p t ⟨k, S.toServer ++ [b], S.toProg, S.server⟩ := by
  obtain ⟨u, hu, rfl⟩ := step_write.1 hs
  obtain ⟨x, k, hw, rfl⟩ := Uart.step_write.1 hu
  obtain ⟨b, q, hq, rfl, rfl, hf⟩ := h.serves.at_next.put_of hw
  obtain ⟨b', q', hq', hserves⟩ := h.serves.write hu
  obtain ⟨rfl, rfl⟩ := Prog.put.inj (hq.symm.trans hq')
  have hitems : (s.uart.tx.push b.toUInt32.toUInt8).items = s.uart.tx.items ++ [b] := by
    rw [Fifo.items_push hf, UInt8.toUInt8_toUInt32]
  refine ⟨b, q, hq, hitems, rfl, hserves, ?_, h.toProg, h.server⟩
  rw [h.toServer, List.append_assoc, ← hitems]

theorem Follows.read (h : Follows p s S) {dr : UInt32} (hs : s.step srv (.read dr) = some t) :
    ∃ k b d, S.prog = .get k ∧ S.toProg = b :: d ∧ t.uart.tx = s.uart.tx ∧
      s.uart.rx.items = b :: t.uart.rx.items ∧ Follows p t ⟨k b, S.toServer, d, S.server⟩ := by
  obtain ⟨u, hu, rfl⟩ := step_read.1 hs
  obtain ⟨k, hr, hcases⟩ := Uart.step_read.1 hu
  obtain ⟨q, hq, -, hne⟩ := h.serves.at_next.get_of hr
  obtain ⟨q', hq', hserves⟩ := h.serves.read hu
  obtain rfl := Prog.get.inj (hq.symm.trans hq')
  rcases hcases with ⟨rx, hpop, rfl⟩ | ⟨hempty, -⟩
  · have hitems := Fifo.pop_eq_some.1 hpop
    refine ⟨q, dr.toUInt8, rx.items ++ s.toUart, hq, ?_, rfl, hitems, hserves, h.toServer, rfl,
      h.server⟩
    rw [h.toProg, hitems, List.cons_append]
  · exact absurd hempty hne

theorem Follows.drain (h : Follows p s S) (hs : s.step srv .drain = some t) :
    (∃ b, s.uart.tx.items = b :: t.uart.tx.items) ∧ t.uart.rx = s.uart.rx ∧
      t.uart.thread = s.uart.thread ∧ Follows p t S := by
  obtain ⟨b, tx, u, hpop, hu, rfl⟩ := step_drain.1 hs
  obtain ⟨b', tx', hpop', rfl⟩ := Uart.step_drain.1 hu
  obtain ⟨rfl, rfl⟩ := Prod.mk.inj (Option.some.inj (hpop.symm.trans hpop'))
  have hitems := Fifo.pop_eq_some.1 hpop
  refine ⟨⟨b, hitems⟩, rfl, rfl, h.serves.drain hu, ?_, h.toProg, h.server⟩
  rw [h.toServer, hitems, List.append_assoc, List.singleton_append]

theorem Follows.receive (h : Follows p s S) (hs : s.step srv .receive = some t) :
    t.uart.tx = s.uart.tx ∧ (∃ b, t.uart.rx.items = s.uart.rx.items ++ [b]) ∧
      t.uart.thread = s.uart.thread ∧ Follows p t S := by
  obtain ⟨b, rest, u, hrest, hu, rfl⟩ := step_receive.1 hs
  obtain ⟨hroom, rfl⟩ := Uart.step_receive.1 hu
  have hitems := Fifo.items_push hroom b
  refine ⟨rfl, ⟨b, hitems⟩, rfl, h.serves.receive hu, h.toServer, ?_, h.server⟩
  rw [h.toProg, hrest, hitems, List.append_assoc, List.singleton_append]

theorem Follows.serve (h : Follows p s S) (hs : s.step srv .serve = some t) :
    t.uart = s.uart ∧ ∃ S', Step srv S S' ∧ Follows p t S' := by
  obtain ⟨st, hst, hmem, rfl⟩ := step_serve.1 hs
  obtain ⟨q, u, d, server⟩ := S
  obtain rfl : server = .ok st := h.server.trans hst
  have hcut : u = readline s.toServer ++ eol :: (unread s.toServer ++ s.uart.tx.items) := by
    rw [← List.cons_append, ← List.append_assoc, readline_append hmem]
    exact h.toServer
  refine ⟨rfl, _, .serve q _ d st (eol_not_mem_readline _) hcut, h.serves, rfl, ?_, rfl⟩
  show d ++ _ = _
  rw [show d = _ from h.toProg, List.append_assoc]

/-- **One step of the link** is none or one of the channel. -/
theorem Follows.step (h : Follows p s S) {e : LinkEvent} (hs : s.step srv e = some t) :
    Follows p t S ∨ ∃ S', Step srv S S' ∧ Follows p t S' := by
  cases e with
  | poll fr =>
    rcases h.poll hs with rfl | ⟨-, -, -, -, ht⟩
    · exact Or.inl h
    · exact Or.inl ht
  | write =>
    obtain ⟨b, k, hq, -, -, ht⟩ := h.write hs
    obtain ⟨q, u, d, server⟩ := S
    obtain rfl : q = .put b k := hq
    exact Or.inr ⟨_, .put b k u d server, ht⟩
  | read dr =>
    obtain ⟨k, b, d', hq, hd, -, -, ht⟩ := h.read hs
    obtain ⟨q, u, d, server⟩ := S
    obtain rfl : q = .get k := hq
    obtain rfl : d = b :: d' := hd
    exact Or.inr ⟨_, .get k u b d' server, ht⟩
  | drain =>
    obtain ⟨-, -, -, ht⟩ := h.drain hs
    exact Or.inl ht
  | receive =>
    obtain ⟨-, -, -, ht⟩ := h.receive hs
    exact Or.inl ht
  | serve =>
    obtain ⟨-, S', hS, ht⟩ := h.serve hs
    exact Or.inr ⟨S', hS, ht⟩

/-- A run of the channel comes where the link is. -/
def Followed (srv : Server ε σ) (p : Prog α) (S₀ : Sys ε σ α) (t : Link n m ε σ α) : Prop :=
  ∃ k, ∃ S : Sys ε σ α, Steps (Step srv) k S₀ S ∧ Follows p t S

theorem Followed.step {S₀ : Sys ε σ α} (h : Followed srv p S₀ s) {e : LinkEvent}
    (hs : s.step srv e = some t) : Followed srv p S₀ t := by
  obtain ⟨k, S, hS, hf⟩ := h
  rcases hf.step hs with ht | ⟨S', hS', ht⟩
  · exact ⟨k, S, hS, ht⟩
  · exact ⟨k + 1, S', hS.trans (.head hS' (.refl _)), ht⟩

theorem Follows.visits (h : Follows p s S) {es : List LinkEvent}
    (hv : Visits (Link.step srv) s es t) : Followed srv p S t := by
  refine hv.invariant (P := fun _ _ => True) ?_ ?_ ⟨0, _, .refl _, h⟩
  · intro s e s' _ hs hstep
    exact hs.step hstep
  · intro s e s' _
    trivial

end Link

/-- **The link refines the channel**: whatever the FIFOs, the device and the
    schedule, a run has come where a run of the channel comes, the channel
    holding the bytes in the FIFOs and on the line.  A call that returns there
    has returned the same here, and has left no byte anywhere. -/
theorem link_refines {srv : Server ε σ} (p : Prog α) (st : σ) {es : List LinkEvent}
    {t : Link n m ε σ α} (h : Visits (Link.step srv) (Link.start p st) es t) :
    (∃ k, ∃ S : Sys ε σ α, Steps (Step srv) k ⟨p, [], [], .ok st⟩ S ∧ t.uart.At S.prog ∧
      S.toServer = t.toServer ++ t.uart.tx.items ∧ S.toProg = t.uart.rx.items ++ t.toUart ∧
      S.server = t.server) ∧
    (Talks srv → ∀ a st', Calls srv p st a st' → ∀ b, t.uart.thread = .ret b →
      b = a ∧ t.server = .ok st' ∧ t.toServer = [] ∧ t.uart.tx.items = [] ∧
        t.uart.rx.items = [] ∧ t.toUart = []) := by
  obtain ⟨k, S, hS, ht⟩ := (Link.follows_start p st).visits h
  refine ⟨⟨k, S, hS, ht.serves.at_next, ht.toServer, ht.toProg, ht.server⟩, ?_⟩
  intro htalks a st' hc b hb
  obtain ⟨-, N, hN⟩ := calls_iff_settles.1 hc
  obtain ⟨j, -, hj⟩ := hN k S hS
  obtain ⟨q, u, d, server⟩ := S
  obtain rfl : q = .ret b := ht.serves.at_next.ret_of hb
  obtain rfl := steps_ret htalks hj
  cases hj
  obtain ⟨hline, htx⟩ := List.append_eq_nil_iff.1 ht.toServer.symm
  obtain ⟨hrx, hback⟩ := List.append_eq_nil_iff.1 ht.toProg.symm
  exact ⟨rfl, ht.server.symm, hline, htx, hrx, hback⟩

/-- A server that sends every line back. -/
def echo : Server Unit Unit := fun _ line => .ok (line ++ [eol], ())

/-- Send `A` and read it back. -/
def echoA : Prog UInt8 := do
  pl011Putc 65
  pl011Putc eol
  let b ← pl011Getc
  let _ ← pl011Getc
  return b

/-- A schedule through FIFOs of one byte, in which the thread finds a flag set twice. -/
def echoRun : List LinkEvent :=
  [.poll 0x10, .write, .poll 0x30, .drain, .poll 0x10, .write, .drain, .serve, .poll 0x10, .receive,
    .poll 0, .read 65, .receive, .poll 0, .read 10]

theorem link_refines_echo : ∃ t : Link 1 1 Unit Unit UInt8,
    Visits (Link.step echo) (Link.start echoA ()) echoRun t ∧ t.uart.thread = .ret 65 ∧
      t.server = .ok () ∧ t.uart.rx.items = [] ∧ t.toUart = [] := by
  obtain ⟨t, hr, ht⟩ : ∃ t : Link 1 1 Unit Unit UInt8,
      run (Link.step echo) (Link.start echoA ()) echoRun = some t ∧ t.uart.thread = .ret 65 :=
    ⟨_, rfl, rfl⟩
  have hv := visits_of_run hr []
  rw [List.append_nil] at hv
  have htalks : Talks echo := by
    intro st line reply st' h
    cases h
    simp
  have hcalls : Calls echo echoA () 65 () := rfl
  obtain ⟨-, hserver, -, -, hrx, hback⟩ := (link_refines _ _ hv).2 htalks _ _ hcalls _ ht
  exact ⟨t, hv, ht, hserver, hrx, hback⟩

/-! ## Every fair run comes to the end -/

namespace Link

variable {srv : Server ε σ} {s t : Link n m ε σ α} {p : Prog α} {S T : Sys ε σ α}

/-- What the thread and the device can do before the channel's next step: poll
    once with success, send the bytes of one FIFO and fill the other. -/
def load (s : Link n m ε σ α) : ℤ :=
  s.uart.tx.items.length + s.uart.thread.waits - s.uart.rx.items.length

theorem Follows.variant (h : Follows p s S) {e : LinkEvent} (hs : s.step srv e = some t) :
    t = s ∨ (Follows p t S ∧ t.load < s.load) ∨
      ∃ S', Step srv S S' ∧ Follows p t S' ∧ t.load ≤ s.load + 2 := by
  have hwaits := t.uart.thread.waits_le
  unfold load
  cases e with
  | poll fr =>
    rcases h.poll hs with rfl | ⟨htx, hrx, hone, hzero, ht⟩
    · exact Or.inl rfl
    · refine Or.inr (Or.inl ⟨ht, ?_⟩)
      rw [htx, hrx, hone, hzero]
      omega
  | write =>
    obtain ⟨b, k, hq, htx, hrx, ht⟩ := h.write hs
    obtain ⟨q, u, d, server⟩ := S
    obtain rfl : q = .put b k := hq
    refine Or.inr (Or.inr ⟨_, .put b k u d server, ht, ?_⟩)
    rw [htx, hrx, List.length_append, List.length_singleton]
    omega
  | read dr =>
    obtain ⟨k, b, d', hq, hd, htx, hrx, ht⟩ := h.read hs
    obtain ⟨q, u, d, server⟩ := S
    obtain rfl : q = .get k := hq
    obtain rfl : d = b :: d' := hd
    refine Or.inr (Or.inr ⟨_, .get k u b d' server, ht, ?_⟩)
    rw [htx, hrx, List.length_cons]
    omega
  | drain =>
    obtain ⟨⟨b, htx⟩, hrx, hthread, ht⟩ := h.drain hs
    refine Or.inr (Or.inl ⟨ht, ?_⟩)
    rw [htx, hrx, hthread, List.length_cons]
    omega
  | receive =>
    obtain ⟨htx, ⟨b, hrx⟩, hthread, ht⟩ := h.receive hs
    refine Or.inr (Or.inl ⟨ht, ?_⟩)
    rw [htx, hrx, hthread, List.length_append, List.length_singleton]
    omega
  | serve =>
    obtain ⟨huart, S', hS, ht⟩ := h.serve hs
    refine Or.inr (Or.inr ⟨S', hS, ht, ?_⟩)
    rw [huart]
    omega

/-- `k` bounds the steps to `T` that change something. -/
def Within (srv : Server ε σ) (p : Prog α) (T : Sys ε σ α) (s : Link n m ε σ α) (k : ℕ) : Prop :=
  ∃ S j, Follows p s S ∧ Steps (Step srv) j S T ∧ (k : ℤ) = 3 * j + s.load + T.toProg.length

theorem Follows.within (h : Follows p s S) {j : ℕ} (hS : Steps (Step srv) j S T) :
    ∃ k, Within srv p T s k ∧ (k : ℤ) = 3 * j + s.load + T.toProg.length := by
  have hrx : s.uart.rx.items.length ≤ j + T.toProg.length := by
    refine le_trans ?_ hS.toProg_le
    rw [h.toProg, List.length_append]
    omega
  have hk : 0 ≤ 3 * j + s.load + T.toProg.length := by
    unfold load
    omega
  obtain ⟨k, hk⟩ := Int.eq_ofNat_of_zero_le hk
  exact ⟨k, ⟨S, j, h, hS, hk.symm⟩, hk.symm⟩

theorem Within.step (hT : Normal (Step srv) T) {k : ℕ} (h : Within srv p T s k) {e : LinkEvent}
    (hs : s.step srv e = some t) : t = s ∨ ∃ k', k' < k ∧ Within srv p T t k' := by
  obtain ⟨S, j, hf, hS, hk⟩ := h
  rcases hf.variant hs with heq | ⟨ht, hlt⟩ | ⟨S', hS', ht, hle⟩
  · exact Or.inl heq
  · obtain ⟨k', hw, hk'⟩ := ht.within hS
    exact Or.inr ⟨k', by omega, hw⟩
  · obtain ⟨j, rfl, hS'T⟩ := hS.reroute (diamond_step srv) hT hS'
    obtain ⟨k', hw, hk'⟩ := ht.within hS'T
    push_cast at hk
    exact Or.inr ⟨k', by omega, hw⟩

/-! ### At rest -/

/-- Only a poll that finds the flag set changes nothing. -/
theorem step_self {e : LinkEvent} (hs : s.step srv e = some s) : ∃ fr mask k, e = .poll fr ∧
    s.uart.thread = .wait mask k ∧ s.uart.Flags fr ∧ fr &&& mask ≠ 0 := by
  cases e with
  | poll fr =>
    obtain ⟨u, hu, heq⟩ := step_poll.1 hs
    obtain ⟨mask, k, hw, hflags, rfl⟩ := Uart.step_poll.1 hu
    refine ⟨fr, mask, k, rfl, hw, hflags, fun hbit => ?_⟩
    have hthread : s.uart.thread = k := by
      have := congrArg (fun s => s.uart.thread) heq
      simpa [hbit] using this
    rw [hw] at hthread
    have hsize := congrArg sizeOf hthread
    simp only [Mmio.wait.sizeOf_spec] at hsize
    omega
  | write =>
    obtain ⟨u, hu, heq⟩ := step_write.1 hs
    obtain ⟨x, k, -, rfl⟩ := Uart.step_write.1 hu
    have := congrArg (fun s => s.uart.written) heq
    simp at this
  | read dr =>
    obtain ⟨u, hu, heq⟩ := step_read.1 hs
    obtain ⟨k, -, ⟨rx, -, rfl⟩ | ⟨-, rfl⟩⟩ := Uart.step_read.1 hu
    · have := congrArg (fun s => s.uart.returned) heq
      simp at this
    · have := congrArg (fun s => s.uart.returned) heq
      simp at this
  | drain =>
    obtain ⟨b, tx, u, -, -, heq⟩ := step_drain.1 hs
    have := congrArg (fun s => s.toServer) heq
    simp at this
  | receive =>
    obtain ⟨b, rest, u, hrest, -, heq⟩ := step_receive.1 hs
    have := congrArg (fun s => s.toUart) heq
    simp [hrest] at this
  | serve =>
    obtain ⟨st, -, hmem, heq⟩ := step_serve.1 hs
    have hline : s.toServer = unread s.toServer := congrArg (fun s => s.toServer) heq
    have hlen := congrArg List.length (readline_append hmem)
    rw [List.length_append, List.length_cons] at hlen
    have := congrArg List.length hline
    omega

theorem empty_of_drain (h : s.step srv .drain = none) : s.uart.tx.Empty := by
  by_contra hne
  obtain ⟨b, tx, hpop⟩ := Fifo.exists_pop hne
  have hs : s.step srv .drain = some _ := step_drain.2
    ⟨b, tx, _, hpop, Uart.step_drain.2 ⟨b, tx, hpop, rfl⟩, rfl⟩
  rw [h] at hs
  cases hs

theorem full_of_receive (h : s.step srv .receive = none) : s.toUart = [] ∨ s.uart.rx.Full := by
  by_contra hne
  push Not at hne
  obtain ⟨b, rest, hrest⟩ := List.exists_cons_of_ne_nil hne.1
  have hs : s.step srv .receive = some _ := step_receive.2
    ⟨b, rest, _, hrest, Uart.step_receive.2 ⟨hne.2, rfl⟩, rfl⟩
  rw [h] at hs
  cases hs

theorem idle_of_serve (h : s.step srv .serve = none) : Idle s.toServer s.server := by
  rcases hst : s.server with e | st
  · trivial
  · intro hmem
    have hs : s.step srv .serve = some _ := step_serve.2 ⟨st, hst, hmem, rfl⟩
    rw [h] at hs
    cases hs

/-- A thread that does not get on has returned, or waits for room or for a byte. -/
theorem Follows.waits (h : Follows p s S) (hidle : Enabled (Link.step srv) LinkEvent.OfThread s →
      ∃ e, e.OfThread ∧ s.step srv e = some s) :
    (∃ a, S.prog = .ret a) ∨ (∃ b k, S.prog = .put b k ∧ s.uart.tx.Full) ∨
      ∃ k, S.prog = .get k ∧ s.uart.rx.Empty := by
  have hret : Enabled (Link.step srv) LinkEvent.OfThread s → ∃ fr mask k,
      s.uart.thread = .wait mask k ∧ s.uart.Flags fr ∧ fr &&& mask ≠ 0 := by
    intro henabled
    obtain ⟨e, -, hs⟩ := hidle henabled
    obtain ⟨fr, mask, k, -, hw⟩ := step_self hs
    exact ⟨fr, mask, k, hw⟩
  rcases hthread : s.uart.thread with a | ⟨mask, k⟩ | ⟨x, k⟩ | k
  · exact Or.inl ⟨a, h.serves.at_next.ret_of hthread⟩
  · have hpoll := Uart.step_poll.2 ⟨mask, k, hthread, s.uart.flags_flags, rfl⟩
    obtain ⟨fr, mask', k', hw, hflags, hbit⟩ :=
      hret ⟨.poll _, _, trivial, step_poll.2 ⟨_, hpoll, rfl⟩⟩
    have hq := hw.symm.trans (h.serves.at_next.wait_of hw)
    rcases hprog : S.prog with a | ⟨b, q⟩ | q
    · rw [hprog] at hq
      cases hq
    · rw [hprog] at hq
      cases hq
      exact Or.inr (Or.inl ⟨b, q, rfl, hflags.1.1 hbit⟩)
    · rw [hprog] at hq
      cases hq
      exact Or.inr (Or.inr ⟨q, rfl, hflags.2.1 hbit⟩)
  · have hwrite := Uart.step_write.2 ⟨x, k, hthread, rfl⟩
    obtain ⟨fr, mask, k', hw, -⟩ := hret ⟨.write, _, trivial, step_write.2 ⟨_, hwrite, rfl⟩⟩
    cases hthread.symm.trans hw
  · obtain ⟨q, -, -, hne⟩ := h.serves.at_next.get_of hthread
    obtain ⟨b, rx, hpop⟩ := Fifo.exists_pop hne
    have hread : s.uart.step (.read b.toUInt32) = some _ := Uart.step_read.2 ⟨k, hthread,
      Or.inl ⟨rx, by rw [UInt8.toUInt8_toUInt32]; exact hpop, rfl⟩⟩
    obtain ⟨fr, mask, k', hw, -⟩ := hret ⟨.read _, _, trivial, step_read.2 ⟨_, hread, rfl⟩⟩
    cases hthread.symm.trans hw

/-- The thread, each direction of the device and the server are not held up for ever. -/
structure Fair (tr : Trace (Link.step srv : Link n m ε σ α → _)) : Prop where
  thread : tr.Fair LinkEvent.OfThread
  drain : tr.Fair (· = .drain)
  receive : tr.Fair (· = .receive)
  serve : tr.Fair (· = .serve)

variable {tr : Trace (Link.step srv : Link n m ε σ α → _)} {i : ℕ}

theorem disabled {e : LinkEvent} (he : ∀ fr, e ≠ .poll fr) (hf : tr.Fair (· = e))
    (hrest : tr.RestsAt i) : (tr.state i).step srv e = none := by
  by_contra hne
  obtain ⟨t, ht⟩ := Option.ne_none_iff_exists'.1 hne
  obtain ⟨_, rfl, hs⟩ := hf.idles hrest ⟨e, t, rfl, ht⟩
  obtain ⟨fr, -, -, rfl, -⟩ := step_self hs
  exact he fr rfl

/-- At rest the channel has come to its end. -/
theorem Follows.normal (hn : 1 ≤ n) (hm : 1 ≤ m) (hf : Fair tr) (hrest : tr.RestsAt i)
    (h : Follows p (tr.state i) S) : Normal (Step srv) S := by
  have htx := empty_of_drain (disabled (by simp) hf.drain hrest)
  have hrx := full_of_receive (disabled (by simp) hf.receive hrest)
  have hidle := idle_of_serve (disabled (by simp) hf.serve hrest)
  have hwaits := h.waits fun he => hf.thread.idles hrest he
  obtain ⟨q, u, d, server⟩ := S
  refine normal_of_idle ?_ ?_ ?_
  · rw [show u = _ from h.toServer, show server = _ from h.server, htx, List.append_nil]
    exact hidle
  · rintro b k rfl
    rcases hwaits with ⟨a, hq⟩ | ⟨b', k', -, hfull⟩ | ⟨k', hq, -⟩
    · cases hq
    · exact Fifo.not_full_of_empty hn htx hfull
    · cases hq
  · rintro k rfl
    rcases hwaits with ⟨a, hq⟩ | ⟨b', k', hq, -⟩ | ⟨k', -, hempty⟩
    · cases hq
    · cases hq
    · rw [show d = _ from h.toProg, hempty, List.nil_append]
      exact hrx.resolve_right (Fifo.not_full_of_empty hm hempty)

/-- A fair run comes to rest where the channel settles. -/
theorem Follows.settles (hn : 1 ≤ n) (hm : 1 ≤ m) (hf : Fair tr) (h : Follows p (tr.state 0) S)
    (hS : Settles (Step srv) S T) : ∃ i, tr.RestsAt i ∧ Follows p (tr.state i) T := by
  obtain ⟨hT, N, hN⟩ := hS
  obtain ⟨j₀, -, hstart⟩ := hN 0 _ (.refl _)
  obtain ⟨k, hk, -⟩ := h.within hstart
  obtain ⟨i, hrest⟩ := Trace.rests (fun s e t k hk hs => hk.step hT hs) hk
  obtain ⟨j, S', hS', hfollows⟩ := h.visits (tr.visits i)
  have hnormal := hfollows.normal hn hm hf hrest
  obtain ⟨j', -, hj⟩ := hN j S' hS'
  refine ⟨i, hrest, ?_⟩
  cases hj with
  | refl => exact hfollows
  | head hs _ => exact absurd hs (hnormal _)

end Link

/-- **Every fair run comes to the end that `settle` computes** and stays there:
    the polls do not go on for ever without effect unless the program waits for
    a byte that is never sent. -/
theorem link_settles {srv : Server ε σ} (hn : 1 ≤ n) (hm : 1 ≤ m) (p : Prog α) (st : σ)
    {tr : Trace (Link.step srv : Link n m ε σ α → _)} (h₀ : tr.state 0 = Link.start p st)
    (hf : Link.Fair tr) :
    ∃ i, tr.RestsAt i ∧ Link.Follows p (tr.state i) (settle srv p [] [] (.ok st)) := by
  have hstart : Link.Follows p (tr.state 0) ⟨p, [], [], .ok st⟩ := by
    rw [h₀]
    exact Link.follows_start p st
  exact hstart.settles hn hm hf (settles_settle srv p (by simp [Idle]))

/-! ## Fair runs exist -/

namespace Link

variable {srv : Server ε σ} {s t : Link n m ε σ α}

/-- What the thread does next. -/
def threadTurn (s : Link n m ε σ α) : LinkEvent :=
  match s.uart.thread with
  | .ret _ => .write
  | .wait _ _ => .poll s.uart.flags
  | .write _ _ => .write
  | .read _ => .read (s.uart.rx.items.headD 0).toUInt32

/-- Thread, device and server in turn. -/
def turn (i : ℕ) (s : Link n m ε σ α) : LinkEvent :=
  if i % 4 = 0 then s.threadTurn
  else if i % 4 = 1 then .drain
  else if i % 4 = 2 then .receive
  else .serve

theorem step_threadTurn (h : Enabled (Link.step srv) LinkEvent.OfThread s) :
    s.threadTurn.OfThread ∧ ∃ t, s.step srv s.threadTurn = some t := by
  obtain ⟨e, t, he, hs⟩ := h
  have hne (a : α) : s.uart.thread ≠ .ret a := by
    intro hret
    cases e with
    | poll fr =>
      obtain ⟨u, hu, -⟩ := step_poll.1 hs
      obtain ⟨mask, k, hw, -⟩ := Uart.step_poll.1 hu
      cases hret.symm.trans hw
    | write =>
      obtain ⟨u, hu, -⟩ := step_write.1 hs
      obtain ⟨x, k, hw, -⟩ := Uart.step_write.1 hu
      cases hret.symm.trans hw
    | read dr =>
      obtain ⟨u, hu, -⟩ := step_read.1 hs
      obtain ⟨k, hw, -⟩ := Uart.step_read.1 hu
      cases hret.symm.trans hw
    | drain => exact he
    | receive => exact he
    | serve => exact he
  unfold threadTurn
  rcases hthread : s.uart.thread with a | ⟨mask, k⟩ | ⟨x, k⟩ | k
  · exact absurd hthread (hne a)
  · have hu := Uart.step_poll.2 ⟨mask, k, hthread, s.uart.flags_flags, rfl⟩
    exact ⟨trivial, _, step_poll.2 ⟨_, hu, rfl⟩⟩
  · have hu := Uart.step_write.2 ⟨x, k, hthread, rfl⟩
    exact ⟨trivial, _, step_write.2 ⟨_, hu, rfl⟩⟩
  · refine ⟨trivial, ?_⟩
    by_cases hempty : s.uart.rx.Empty
    · exact ⟨_, step_read.2 ⟨_, Uart.step_read.2 ⟨k, hthread, Or.inr ⟨hempty, rfl⟩⟩, rfl⟩⟩
    · obtain ⟨b, rx, hpop⟩ := Fifo.exists_pop hempty
      have hb : (s.uart.rx.items.headD 0).toUInt32.toUInt8 = b := by
        rw [Fifo.pop_eq_some.1 hpop, UInt8.toUInt8_toUInt32]
        rfl
      have hu := Uart.step_read.2 ⟨k, hthread, Or.inl ⟨rx, by rw [hb]; exact hpop, rfl⟩⟩
      exact ⟨_, step_read.2 ⟨_, hu, rfl⟩⟩

theorem fair_play (s : Link n m ε σ α) : Fair (Trace.play (Link.step srv) turn s) where
  thread := Trace.play_fair (fun i => ⟨4 * i, by omega, fun s hs => by
    rw [turn, if_pos (by omega)]
    exact step_threadTurn hs⟩) s
  drain := Trace.play_fair (fun i => ⟨4 * i + 1, by omega, fun s ⟨e, t, he, hs⟩ => by
    rw [turn, if_neg (by omega), if_pos (by omega), ← he]
    exact ⟨rfl, t, hs⟩⟩) s
  receive := Trace.play_fair (fun i => ⟨4 * i + 2, by omega, fun s ⟨e, t, he, hs⟩ => by
    rw [turn, if_neg (by omega), if_neg (by omega), if_pos (by omega), ← he]
    exact ⟨rfl, t, hs⟩⟩) s
  serve := Trace.play_fair (fun i => ⟨4 * i + 3, by omega, fun s ⟨e, t, he, hs⟩ => by
    rw [turn, if_neg (by omega), if_neg (by omega), if_neg (by omega), ← he]
    exact ⟨rfl, t, hs⟩⟩) s

end Link

theorem link_settles_echo :
    let tr := Trace.play (Link.step echo) Link.turn (Link.start echoA () : Link 1 1 _ _ _)
    ∃ i, tr.RestsAt i ∧ Link.Follows echoA (tr.state i) ⟨.ret 65, [], [], .ok ()⟩ :=
  link_settles le_rfl le_rfl echoA () rfl (Link.fair_play _)

end CcKernel
