/-
  The console on its terminal (`user/console.c`).

  `Session` and `Stream` leave out what the console writes to `UART1`.  Here the
  loop of `main_console` polls and accesses the UART for every byte: the keys
  typed come in on the line at any moments, and what leaves the UART is on the
  screen.

  `screen` is a function of the keys alone.  The console never shows anything
  but a prefix of it, and if neither it nor the device is held up for ever it
  shows all of it, before it waits for the next key.
-/
import CcKernel.Device.Link
import CcKernel.User.Stream

namespace CcKernel

open Duplex Lts CStr

/-! ## The loop -/

/-- `k` turns of the loop of `puts`; the string ends with its NUL. -/
def putsLoop (x : Str) : ℕ → ℕ → Prog Unit
  | 0, _ => return ()
  | k + 1, i => do
    pl011Putc (x.getD i 0)
    putsLoop x k (i + 1)

def consolePuts (x : Str) (n : ℕ) : Prog Unit := putsLoop x n 0

/-- Of the calls of an iteration only `puts` uses the UART. -/
def perform : List ConsoleCall → Prog Unit
  | [] => return ()
  | .puts x n :: calls => do
    consolePuts x n
    perform calls
  | _ :: calls => perform calls

/-- `k` iterations from the iteration `i` on, as in `consoleSession`. -/
def consoleLoop (stale : ℕ → CmdArray) (forked : ℕ → Int32) (i : ℕ) :
    ℕ → Prog (Except SessionError (List (List ConsoleCall)))
  | 0 => return .ok []
  | k + 1 => do
    consolePuts (str "console$ ") 7
    let cmd ← gets (stale i).toList maxCmdChars
    match respond cmd (forked i) with
    | .ok calls =>
      perform calls.tail -- the prompt has been written
      return (← consoleLoop stale forked (i + 1) k).map (calls :: ·)
    | .error e => return .error e

/-! ## What it shows -/

/-- What a call writes. -/
def ConsoleCall.shown : ConsoleCall → List UInt8
  | .puts x n => (List.range n).map fun i => x.getD i 0
  | _ => []

/-- What `k` iterations write as the keys `d` are typed. -/
def screen (forked : ℕ → Int32) (i : ℕ) : ℕ → List UInt8 → List UInt8
  | 0, _ => []
  | k + 1, d =>
    str "console" ++ (chunk maxCmdChars d).elim [] fun (c, rest) =>
      match iterate c (forked i) with
      | .ok calls => calls.tail.flatMap ConsoleCall.shown ++ screen forked (i + 1) k rest
      | .error _ => []

theorem putsLoop_eq (x : Str) (k i : ℕ) :
    putsLoop x k i = puts ((List.range' i k).map fun j => x.getD j 0) := by
  induction k generalizing i with
  | zero => rfl
  | succ k ih =>
    show Prog.put (x.getD i 0) (putsLoop x k (i + 1)) = _
    rw [ih]
    rfl

theorem consolePuts_eq (x : Str) (n : ℕ) :
    consolePuts x n = puts (ConsoleCall.puts x n).shown := by
  rw [consolePuts, putsLoop_eq, ConsoleCall.shown, List.range_eq_range']

theorem perform_eq (calls : List ConsoleCall) :
    perform calls = puts (calls.flatMap ConsoleCall.shown) := by
  induction calls with
  | nil => rfl
  | cons c calls ih =>
    rw [List.flatMap_cons, puts_append, ← ih]
    cases c with
    | puts x n => rw [← consolePuts_eq]; rfl
    | fork | exec | kill => rfl

theorem shown_prompt : (ConsoleCall.puts (str "console$ ") 7).shown = str "console" := by decide

/-! ## The loop against the keys -/

theorem listens_getsLoop (k i : ℕ) (x : List UInt8) : Listens (getsLoop k i x) := by
  induction k generalizing i x with
  | zero => trivial
  | succ k ih =>
    intro b
    show Listens (if _ then _ else _)
    split_ifs
    · trivial
    · exact ih (i + 1) _

variable {stale : ℕ → CmdArray} {forked : ℕ → Int32}

/-- What a session returns, and what it has shown until then. -/
theorem run_consoleLoop (k i : ℕ) (d : List UInt8) : run (consoleLoop stale forked i k) d =
    (converse forked i k d).map fun r => ⟨r.1, screen forked i k d, r.2⟩ := by
  induction k generalizing i d with
  | zero => rfl
  | succ k ih =>
    have hgets : run (gets (stale i).toList maxCmdChars) d = _ := run_gets (by simp)
    rw [consoleLoop, consolePuts_eq, shown_prompt, run_puts_bind, run_bind, hgets, converse, screen]
    rcases hchunk : chunk maxCmdChars d with _ | ⟨c, rest⟩
    · rfl
    simp only [Option.map_some, Option.bind_some, Option.elim_some, respond_chunk hchunk]
    rcases iterate c (forked i) with e | calls
    · rfl
    · show Option.map _ (Option.map _ (run (perform calls.tail >>= fun _ =>
        consoleLoop stale forked (i + 1) k >>= fun r => .ret (r.map (calls :: ·))) rest)) = _
      rw [perform_eq, run_puts_bind, run_bind, ih]
      rcases converse forked (i + 1) k rest with _ | r
      · rfl
      · simp [Exchange.after]

/-- What it has shown when it returns or waits for a key. -/
theorem output_consoleLoop (k i : ℕ) (d : List UInt8) :
    output (consoleLoop stale forked i k) d = screen forked i k d := by
  induction k generalizing i d with
  | zero => rfl
  | succ k ih =>
    have hgets : run (gets (stale i).toList maxCmdChars) d = _ := run_gets (by simp)
    have hlistens : Listens (gets (stale i).toList maxCmdChars) := listens_getsLoop _ _ _
    rw [consoleLoop, consolePuts_eq, shown_prompt, output_bind, run_puts,
      output_of_run (run_puts _ d), Option.elim_some, output_bind, hlistens.output, hgets, screen]
    rcases hchunk : chunk maxCmdChars d with _ | ⟨c, rest⟩
    · rfl
    simp only [Option.map_some, Option.elim_some, respond_chunk hchunk, List.nil_append]
    rcases iterate c (forked i) with e | calls
    · rfl
    · show _ ++ output (perform calls.tail >>= fun _ =>
        consoleLoop stale forked (i + 1) k >>= fun r => .ret (r.map (calls :: ·))) rest = _
      rw [perform_eq, output_bind, run_puts, output_of_run (run_puts _ rest), Option.elim_some,
        output_bind, ih]
      rcases run (consoleLoop stale forked (i + 1) k) rest with _ | e
      · simp
      · simp [output]

/-! ## The terminal -/

/-- The keys come in on the line, and what leaves the UART stays on the screen. -/
abbrev Terminal (n m : ℕ) : Type :=
  Link n m Unit Unit (Except SessionError (List (List ConsoleCall)))

/-- Nobody answers but the user. -/
def nobody : Server Unit Unit := fun _ _ => .error ()

variable {n m : ℕ}

/-- `k` iterations, and the keys `d`. -/
def Terminal.start (stale : ℕ → CmdArray) (forked : ℕ → Int32) (k : ℕ) (d : List UInt8) :
    Terminal n m :=
  ⟨.start (issue (consoleLoop stale forked 0 k)), [], d, .error ()⟩

/-- **The screen is a function of the keys**: whatever the FIFOs, the moments at
    which keys arrive, the device and the schedule, the bytes that have been
    shown or are about to be are a prefix of `screen`; and if neither the console
    nor the device is held up for ever, all of it is shown, and the console has
    made the calls of `converse`, or polls `FR` for a key when all of them are read. -/
theorem console_on_terminal (stale : ℕ → CmdArray) (forked : ℕ → Int32) (k : ℕ) (d : List UInt8)
    {tr : Trace (Link.step nobody : Terminal n m → _)}
    (h₀ : tr.state 0 = Terminal.start stale forked k d) :
    (∀ i, (tr.state i).toServer ++ (tr.state i).uart.tx.items <+: screen forked 0 k d) ∧
    (1 ≤ n → 1 ≤ m → Link.Fair tr → ∃ i, tr.RestsAt i ∧
      (tr.state i).toServer = screen forked 0 k d ∧
      (∀ r rest, converse forked 0 k d = some (r, rest) →
        (tr.state i).uart.thread = .ret r ∧
          (tr.state i).uart.rx.items ++ (tr.state i).toUart = rest) ∧
      (converse forked 0 k d = none → (∃ q, (tr.state i).uart.thread = .wait 0x10 q) ∧
        (tr.state i).uart.rx.items = [] ∧ (tr.state i).toUart = [])) := by
  set p := consoleLoop stale forked 0 k with hp
  have hstart : Link.Follows p (tr.state 0) ⟨p, [], d, .error ()⟩ := by
    rw [h₀]
    exact ⟨Uart.serves_start p, rfl, rfl, rfl⟩
  have hsettles := settles_settle nobody p (u := []) (d := d) (s := .error ()) trivial
  obtain ⟨hshown, hret, hwait⟩ := settle_ended nobody (e := ()) p [] d
  rw [hp, output_consoleLoop, List.nil_append, ← hp] at hshown
  rw [hp, run_consoleLoop, ← hp] at hret hwait
  constructor
  · intro i
    obtain ⟨j, S, hS, hfollows⟩ := hstart.visits (tr.visits i)
    obtain ⟨-, N, hN⟩ := hsettles
    obtain ⟨j', -, hT⟩ := hN j S hS
    rw [← hfollows.toServer, ← hshown]
    exact (hT.sent_prefix (hS.sent_prefix rfl).2).1
  · intro hn hm hf
    obtain ⟨i, hrest, hfollows⟩ := hstart.settles hn hm hf hsettles
    have htx := Link.empty_of_drain (Link.disabled (by simp) hf.drain hrest)
    have hscreen := hfollows.toServer
    rw [hshown, htx, List.append_nil] at hscreen
    refine ⟨i, hrest, hscreen.symm, ?_, ?_⟩
    · intro r rest hr
      obtain ⟨hprog, hunread⟩ := hret _ (by rw [hr]; rfl)
      refine ⟨?_, hfollows.toProg.symm.trans hunread⟩
      have hat := hfollows.serves.at_next
      rw [hprog] at hat
      cases hat with
      | poll hthread => exact hthread
    · intro hnone
      obtain ⟨⟨q, hprog⟩, hunread⟩ := hwait (by rw [hnone]; rfl)
      rw [hfollows.toProg] at hunread
      obtain ⟨hrx, hline⟩ := List.append_eq_nil_iff.1 hunread
      refine ⟨?_, hrx, hline⟩
      have hat := hfollows.serves.at_next
      rw [hprog] at hat
      cases hat with
      | poll hthread => exact ⟨_, hthread⟩
      | get _ hne => exact absurd hrx hne

/-- `P3` is no command: the console says so, and asks again. -/
theorem console_on_terminal_p3 :
    let start : Terminal 1 1 :=
      Terminal.start (fun _ => Vector.replicate _ 0) (fun _ => 0) 2 (str "P3\n")
    let tr := Trace.play (Link.step nobody) Link.turn start
    ∃ i, tr.RestsAt i ∧ (tr.state i).toServer = str "consoleunknown command\nconsole" ∧
      ∃ q, (tr.state i).uart.thread = .wait 0x10 q := by
  intro start tr
  have h₀ : tr.state 0 = start := rfl
  obtain ⟨-, hfair⟩ := console_on_terminal _ _ 2 (str "P3\n") h₀
  obtain ⟨i, hrest, hscreen, -, hwait⟩ := hfair le_rfl le_rfl (Link.fair_play start)
  have hshown : screen (fun _ => 0) 0 2 (str "P3\n") = str "consoleunknown command\nconsole" := by
    decide +kernel
  have hnone : converse (fun _ => 0) 0 2 (str "P3\n") = none := by decide +kernel
  exact ⟨i, hrest, hscreen.trans hshown, (hwait hnone).1⟩

end CcKernel
