/-
  Sessions: the loop of `main_console`, from the bytes that arrive on `UART1` to
  the calls it makes.

  The array `cmd` is declared in the loop, so an iteration starts with whatever
  is there.  The call of `exec` is recorded like any other: what follows it in a
  session is up to an `exec` that returns.
-/
import CcKernel.User.Atoi
import CcKernel.User.Gets

namespace CcKernel

open Duplex CStr
open PyStr (space)
open Decimal (Numeral digitChar toNat_digitChar)

inductive SessionError where
  | unterminated
  | violation (v : Violation)
  deriving DecidableEq, Repr

/-- What the array `cmd` may hold when an iteration starts. -/
abbrev CmdArray : Type := Vector UInt8 maxCmdChars

/-- The prompt, and what the command makes of it. -/
def respond (cmd : List UInt8) (forked : Int32) : Except SessionError (List ConsoleCall) :=
  if 0 ∈ cmd then
    match mainConsole (ofArray cmd) forked with
    | .ok calls => .ok (.puts (str "console$ ") 7 :: calls)
    | .error v => .error (.violation v)
  else .error .unterminated

/-- `k` iterations from the iteration `i` on; `stale` is what `cmd` holds when each
    of them starts, `forked` what `fork` returns in it. -/
def consoleSession (stale : ℕ → CmdArray) (forked : ℕ → Int32) (i : ℕ) :
    ℕ → Prog (Except SessionError (List (List ConsoleCall)))
  | 0 => return .ok []
  | k + 1 => do
    let cmd ← gets (stale i).toList maxCmdChars
    match respond cmd (forked i) with
    | .ok calls => return (← consoleSession stale forked (i + 1) k).map (calls :: ·)
    | .error e => return .error e

/-! ## Lines of two tokens -/

structure Token where
  chars : Str
  ne_nil : chars ≠ []
  space_notMem : space ∉ chars
  eol_notMem : eol ∉ chars
  nul_notMem : 0 ∉ chars

/-- Spaces before, between and after two tokens. -/
def spaced (i : ℕ) (a : Token) (j : ℕ) (b : Token) (k : ℕ) : Str :=
  List.replicate i space ++ (a.chars ++ space :: (List.replicate j space ++
    (b.chars ++ List.replicate k space)))

structure TwoTokens where
  before : ℕ
  first : Token
  between : ℕ
  second : Token
  after : ℕ
  length_lt : (spaced before first between second after).length < maxCmdChars

def TwoTokens.chars (l : TwoTokens) : Str := spaced l.before l.first l.between l.second l.after

/-- The line as it is typed. -/
def TwoTokens.bytes (l : TwoTokens) : List UInt8 := l.chars ++ [eol]

theorem words_spaced (i : ℕ) (a : Token) (j : ℕ) (b : Token) (k : ℕ) :
    words space (spaced i a j b k) = [a.chars, b.chars] := by
  rw [spaced, words_replicate_append, words_append a.space_notMem a.ne_nil, words_replicate_append,
    words_append_replicate b.space_notMem b.ne_nil]

/-- Only spaces and the characters of the tokens. -/
theorem mem_spaced {i : ℕ} {a : Token} {j : ℕ} {b : Token} {k : ℕ} {c : UInt8}
    (h : c ∈ spaced i a j b k) : c = space ∨ c ∈ a.chars ∨ c ∈ b.chars := by
  simp only [spaced, List.mem_append, List.mem_cons, List.mem_replicate] at h
  tauto

theorem TwoTokens.eol_notMem (l : TwoTokens) : eol ∉ l.chars := by
  intro h
  rcases mem_spaced h with h | h | h
  · exact absurd h (by decide)
  · exact l.first.eol_notMem h
  · exact l.second.eol_notMem h

theorem TwoTokens.nul_notMem (l : TwoTokens) : 0 ∉ l.chars := by
  intro h
  rcases mem_spaced h with h | h | h
  · exact absurd h (by decide)
  · exact l.first.nul_notMem h
  · exact l.second.nul_notMem h

/-! ## What a command does -/

/-- `fork`, and in the child `exec`. -/
def forkExec (addr : Program) (forked : Int32) : List ConsoleCall :=
  if forked = 0 then [.fork, .exec addr] else [.fork]

/-- What the two tokens ask for. -/
def command (a b : Str) (forked : Int32) : List ConsoleCall :=
  if a = str "execute" then
    if b = str "P3" then forkExec .mainP3 forked
    else if b = str "P4" then forkExec .mainP4 forked
    else if b = str "P5" then forkExec .mainP5 forked
    else [.puts (str "unknown program\n") 16]
  else if a = str "terminate" then [.kill (atoi b) sigTerm]
  else [.puts (str "unknown command\n") 16]

theorem load_eq (x : Str) : load x =
    if x = str "P3" then some .mainP3 else if x = str "P4" then some .mainP4
    else if x = str "P5" then some .mainP5 else none := by
  unfold load
  simp only [strcmp_eq_zero_iff]

theorem execute_eq_command (a b : Str) (forked : Int32) :
    execute (Argv.of (some a) (some b)) forked = .ok (command a b forked) := by
  have h0 : (Argv.of (some a) (some b)).arg 0 = .ok a := rfl
  have h1 : (Argv.of (some a) (some b)).arg 1 = .ok b := rfl
  have hforked : 0 = forked ↔ forked = 0 := eq_comm
  unfold execute command forkExec
  simp only [h0, h1, ok_bind, strcmp_eq_zero_iff, load_eq, hforked]
  by_cases ha : a = str "execute"
  · simp only [if_pos ha]
    by_cases h3 : b = str "P3"
    · simp only [if_pos h3]
      rfl
    · by_cases h4 : b = str "P4"
      · simp only [if_neg h3, if_pos h4]
        rfl
      · by_cases h5 : b = str "P5"
        · simp only [if_neg h3, if_neg h4, if_pos h5]
          rfl
        · simp only [if_neg h3, if_neg h4, if_neg h5]
          rfl
  · simp only [if_neg ha]
    by_cases ht : a = str "terminate"
    · simp only [if_pos ht]
      rfl
    · simp only [if_neg ht]
      rfl

theorem mainConsole_two (l : TwoTokens) (forked : Int32) :
    mainConsole l.chars forked = .ok (command l.first.chars l.second.chars forked) := by
  have hw : words 0x20 l.chars = [l.first.chars, l.second.chars] := words_spaced ..
  rw [mainConsole_eq, hw, storeAll_two, ok_bind, execute_eq_command]

/-! ## Sessions -/

theorem respond_ok {c : Str} {forked : Int32} {calls : List ConsoleCall}
    (h : mainConsole (ofArray c) forked = .ok calls) (x : List UInt8) :
    respond (c ++ 0 :: x) forked = .ok (.puts (str "console$ ") 7 :: calls) := by
  rw [respond, if_pos (by simp), ofArray_zero_append, h]

theorem respond_error {c : Str} {forked : Int32} {v : Violation}
    (h : mainConsole (ofArray c) forked = .error v) (x : List UInt8) :
    respond (c ++ 0 :: x) forked = .error (.violation v) := by
  rw [respond, if_pos (by simp), ofArray_zero_append, h]

section
variable {c : Str} (hc : eol ∉ c) (hlen : c.length < maxCmdChars) (stale : ℕ → CmdArray)
  {forked : ℕ → Int32} {i : ℕ}
include hc hlen

theorem run_gets_cmd (d : List UInt8) : run (gets (stale i).toList maxCmdChars) (c ++ [eol] ++ d) =
    some ⟨c ++ 0 :: (stale i).toList.drop (c.length + 1), [], d⟩ :=
  (yields_gets_line hc hlen (by rw [Vector.length_toList])).run d

/-- An iteration on the line `c`, and the ones after it, -/
theorem run_session_ok {calls : List ConsoleCall}
    (h : mainConsole (ofArray c) (forked i) = .ok calls) (k : ℕ) (d : List UInt8) :
    run (consoleSession stale forked i (k + 1)) (c ++ [eol] ++ d) =
      (run (consoleSession stale forked (i + 1) k) d).map fun e =>
        { e with result := e.result.map ((.puts (str "console$ ") 7 :: calls) :: ·) } := by
  rw [consoleSession, run_bind_of (run_gets_cmd hc hlen stale d), respond_ok h]
  show (run (consoleSession stale forked (i + 1) k >>= fun r => .ret (r.map (_ :: ·))) d).map
    (Exchange.after []) = _
  rw [run_bind]
  rcases run (consoleSession stale forked (i + 1) k) d with _ | e
  · rfl
  · simp [Exchange.after]

/-- or the last one. -/
theorem run_session_error {v : Violation} (h : mainConsole (ofArray c) (forked i) = .error v)
    (k : ℕ) (d : List UInt8) : run (consoleSession stale forked i (k + 1)) (c ++ [eol] ++ d) =
      some ⟨.error (.violation v), [], d⟩ := by
  rw [consoleSession, run_bind_of (run_gets_cmd hc hlen stale d), respond_error h]
  rfl

end

/-- The calls of an iteration that has read the line. -/
def TwoTokens.calls (l : TwoTokens) (forked : Int32) : List ConsoleCall :=
  .puts (str "console$ ") 7 :: command l.first.chars l.second.chars forked

/-- **Each iteration acts on the two tokens of its own line, and on nothing else.** -/
theorem consoleSession_lines (stale : ℕ → CmdArray) (forked : ℕ → Int32) (lines : List TwoTokens)
    (rest : List UInt8) :
    run (consoleSession stale forked 0 lines.length) (lines.flatMap TwoTokens.bytes ++ rest) =
      some ⟨.ok (lines.mapIdx fun i l => l.calls (forked i)), [], rest⟩ := by
  suffices h : ∀ i, run (consoleSession stale forked i lines.length)
      (lines.flatMap TwoTokens.bytes ++ rest) =
        some ⟨.ok (lines.mapIdx fun j l => l.calls (forked (i + j))), [], rest⟩ by
    simpa using h 0
  induction lines with
  | nil =>
    intro i
    rfl
  | cons l lines ih =>
    intro i
    have hl : mainConsole (ofArray l.chars) (forked i) =
        .ok (command l.first.chars l.second.chars (forked i)) := by
      rw [ofArray_eq_self l.nul_notMem, mainConsole_two]
    have hshift : (fun j l => TwoTokens.calls l (forked (i + 1 + j))) =
        fun j l => TwoTokens.calls l (forked (i + (j + 1))) := by
      funext j l
      rw [show i + 1 + j = i + (j + 1) by omega]
    rw [List.length_cons, List.flatMap_cons, List.append_assoc, TwoTokens.bytes,
      run_session_ok l.eol_notMem l.length_lt stale hl, ih (i + 1), List.mapIdx_cons, hshift]
    rfl

/-! ## `terminate` -/

/-- A line `terminate T`, where `T` has any characters that do not end it. -/
structure TerminateLine where
  before : ℕ
  between : ℕ
  arg : Str
  ne_nil : arg ≠ []
  space_notMem : space ∉ arg
  eol_notMem : eol ∉ arg
  after : ℕ
  length_lt : (List.replicate before space ++ (str "terminate" ++ space ::
    (List.replicate between space ++ (arg ++ List.replicate after space)))).length < maxCmdChars

namespace TerminateLine

variable (l : TerminateLine)

def chars : Str :=
  List.replicate l.before space ++ (str "terminate" ++ space ::
    (List.replicate l.between space ++ (l.arg ++ List.replicate l.after space)))

def bytes : List UInt8 := l.chars ++ [eol]

theorem eol_notMem_chars : eol ∉ l.chars := by
  have hne : eol ≠ space := by decide
  simp [chars, hne, l.eol_notMem, List.mem_replicate]
  decide

/-- `strtok` gets what is before the first NUL. -/
theorem words_ofArray : words space (ofArray l.chars) =
    str "terminate" :: if ofArray l.arg = [] then [] else [ofArray l.arg] := by
  have hspaces (n : ℕ) : (0 : UInt8) ∉ List.replicate n space := by
    intro h
    exact absurd (List.eq_of_mem_replicate h) (by decide)
  have harg : words space (ofArray (l.arg ++ List.replicate l.after space)) =
      if ofArray l.arg = [] then [] else [ofArray l.arg] := by
    by_cases h0 : 0 ∈ l.arg
    · rw [ofArray_append_of_mem h0]
      by_cases hnil : ofArray l.arg = []
      · rw [if_pos hnil, hnil, words_nil]
      · have h := words_append_replicate (fun h => l.space_notMem (mem_of_mem_ofArray h)) hnil 0
        rw [List.replicate_zero, List.append_nil] at h
        rw [if_neg hnil, h]
    · rw [ofArray_append h0, ofArray_eq_self (hspaces _), ofArray_eq_self h0, if_neg l.ne_nil,
        words_append_replicate l.space_notMem l.ne_nil]
  have hsplit : l.chars = List.replicate l.before space ++ (str "terminate" ++ [space] ++
      (List.replicate l.between space ++ (l.arg ++ List.replicate l.after space))) := by
    simp [chars]
  rw [hsplit, ofArray_append (hspaces _), ofArray_append (by decide), ofArray_append (hspaces _),
    words_replicate_append, List.append_assoc, List.singleton_append,
    words_append (by decide) (by decide), words_replicate_append, harg]

/-- A NUL at the beginning of the argument leaves none, -/
theorem mainConsole_nil (h : ofArray l.arg = []) (forked : Int32) :
    mainConsole (ofArray l.chars) forked = .error (.unassigned 1) := by
  have hw : words 0x20 (ofArray l.chars) = _ := l.words_ofArray
  rw [if_pos h] at hw
  rw [mainConsole_eq, hw, storeAll_one, ok_bind, execute_one, if_pos (Or.inr rfl)]

/-- and otherwise the process is the one `atoi` computes, whatever the argument is. -/
theorem mainConsole_ne_nil (h : ofArray l.arg ≠ []) (forked : Int32) :
    mainConsole (ofArray l.chars) forked = .ok [.kill (atoi (ofArray l.arg)) sigTerm] := by
  have hw : words 0x20 (ofArray l.chars) = _ := l.words_ofArray
  have hne : ¬ str "terminate" = str "execute" := by decide
  rw [if_neg h] at hw
  rw [mainConsole_eq, hw, storeAll_two, ok_bind, execute_eq_command, command, if_neg hne,
    if_pos rfl]

end TerminateLine

/-- The string is a decimal numeral of `v`. -/
def IsNumeral (x : Str) (v : ℤ) : Prop := ∃ n : Numeral, n.chars = x ∧ n.value = v

/-- An iteration on the line signals no process but the one its argument is a
    numeral of. -/
def SignalsNamed (l : TerminateLine) : Prop :=
  ∀ stale forked rest, ∃ calls,
    run (consoleSession stale forked 0 1) (l.bytes ++ rest) = some ⟨.ok [calls], [], rest⟩ ∧
      ∀ p x, .kill p x ∈ calls → x = sigTerm ∧ IsNumeral l.arg p.toInt

variable {l : TerminateLine}

theorem run_terminate_ok (h : ofArray l.arg ≠ []) (stale : ℕ → CmdArray) (forked : ℕ → Int32)
    (rest : List UInt8) : run (consoleSession stale forked 0 1) (l.bytes ++ rest) =
      some ⟨.ok [[.puts (str "console$ ") 7, .kill (atoi (ofArray l.arg)) sigTerm]], [], rest⟩ :=
  run_session_ok l.eol_notMem_chars l.length_lt stale (l.mainConsole_ne_nil h _) 0 rest

theorem run_terminate_error (h : ofArray l.arg = []) (stale : ℕ → CmdArray) (forked : ℕ → Int32)
    (rest : List UInt8) : run (consoleSession stale forked 0 1) (l.bytes ++ rest) =
      some ⟨.error (.violation (.unassigned 1)), [], rest⟩ :=
  run_session_error l.eol_notMem_chars l.length_lt stale (l.mainConsole_nil h _) 0 rest

theorem SignalsNamed.fits (hs : SignalsNamed l) :
    ∃ v, IsNumeral l.arg v ∧ -2 ^ 31 ≤ v ∧ v < 2 ^ 31 := by
  obtain ⟨calls, hrun, hkill⟩ := hs (fun _ => Vector.replicate _ 0) (fun _ => 0) []
  by_cases h : ofArray l.arg = []
  · rw [run_terminate_error h] at hrun
    cases hrun
  · rw [run_terminate_ok h] at hrun
    obtain rfl : _ = calls := by simpa using hrun
    obtain ⟨-, hnum⟩ := hkill (atoi (ofArray l.arg)) sigTerm (by simp)
    exact ⟨_, hnum, Int32.le_toInt _, Int32.toInt_lt _⟩

/-- **`terminate T` signals the process named exactly if `T` is a numeral that fits in
    an `int`.** -/
theorem signalsNamed_iff (l : TerminateLine) :
    SignalsNamed l ↔ ∃ v, IsNumeral l.arg v ∧ -2 ^ 31 ≤ v ∧ v < 2 ^ 31 := by
  constructor
  · intro hs
    exact hs.fits
  · rintro ⟨v, ⟨n, hn, hv⟩, hfit⟩ stale forked rest
    have harg : ofArray l.arg = l.arg := ofArray_eq_self (hn ▸ n.zero_notMem_chars)
    refine ⟨_, run_terminate_ok (harg.symm ▸ l.ne_nil) stale forked rest, ?_⟩
    intro p x hp
    obtain ⟨rfl, rfl⟩ : p = atoi (ofArray l.arg) ∧ x = sigTerm := by simpa using hp
    have hatoi := (atoi_chars (n := n) (by rw [hv]; exact hfit)).1
    rw [hn] at hatoi
    exact ⟨rfl, n, hn, by rw [harg, hatoi]⟩

/-- `terminate x` -/
def terminateX : TerminateLine where
  before := 0
  between := 0
  arg := str "x"
  ne_nil := by decide
  space_notMem := by decide
  eol_notMem := by decide
  after := 0
  length_lt := by decide

/-- The letter is taken for the digit 72. -/
theorem not_signalsNamed_x : ¬ SignalsNamed terminateX := by
  intro h
  obtain ⟨v, ⟨⟨sign, ds, hne, hlt⟩, hn, -⟩, -⟩ := h.fits
  have hchars : sign.chars ++ ds.map digitChar = [120] := hn
  -- the last character of a numeral is a digit
  obtain ⟨es, d, rfl⟩ := (List.eq_nil_or_concat' ds).resolve_left hne
  rw [List.map_append, ← List.append_assoc] at hchars
  have hlast : digitChar d = 120 := by
    have h := (List.append_inj' (hchars.trans (List.nil_append [120]).symm) rfl).2
    simpa using h
  have hv := toNat_digitChar (hlt d (by simp))
  rw [hlast] at hv
  have hd := hlt d (by simp)
  simp at hv
  omega

end CcKernel
