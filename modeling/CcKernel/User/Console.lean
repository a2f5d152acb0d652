/-
  The console (`user/console.c`).

  `mainConsole` is one iteration of its loop, after the line has been read:
  tokenize the command, then execute it.  The array `cmd_argv` has no contents
  when the iteration starts, and an access that C leaves undefined is an error.
-/
import CcKernel.User.Libc

namespace CcKernel

open CStr

def maxCmdChars : ℕ := 1024

def maxCmdArgs : ℕ := 2

/-- What goes wrong in an access to `cmd_argv`. -/
inductive Violation where
  | store (i : ℕ)
  | unassigned (i : ℕ)
  deriving DecidableEq, Repr

/-- `char* cmd_argv[ MAX_CMD_ARGS ]`; nothing where the iteration has not stored
    a token yet. -/
abbrev Argv : Type := Vector (Option Str) maxCmdArgs

namespace Argv

def empty : Argv := Vector.replicate maxCmdArgs none

/-- The array with these two elements. -/
def of (a b : Option Str) : Argv := #v[a, b]

/-- `cmd_argv[ i ] = t` -/
def store (cmd_argv : Argv) (i : ℕ) (t : Str) : Except Violation Argv :=
  if h : i < maxCmdArgs then .ok (cmd_argv.set i (some t) h) else .error (.store i)

/-- `cmd_argv[ i ]` as an argument -/
def arg (cmd_argv : Argv) (i : ℕ) : Except Violation Str :=
  match cmd_argv[i]? with
  | some (some t) => .ok t
  | _ => .error (.unassigned i)

end Argv

/-- The programs linked into the kernel image. -/
inductive Program where
  | mainP3
  | mainP4
  | mainP5
  deriving DecidableEq, Repr

def load (x : Str) : Option Program :=
  if 0 = strcmp x (str "P3") then some .mainP3
  else if 0 = strcmp x (str "P4") then some .mainP4
  else if 0 = strcmp x (str "P5") then some .mainP5
  else none

/-- What the console does on behalf of a command. -/
inductive ConsoleCall where
  | puts (x : Str) (n : ℕ)
  | fork
  | exec (addr : Program)
  | kill (pid x : Int32)
  deriving DecidableEq

/-- Step 2, from a call of `strtok` on. -/
def tokenize (t : Option (Str × Str)) (cmd_argc : ℕ) (cmd_argv : Argv) : Except Violation Argv :=
  match t with
  | none => .ok cmd_argv
  | some (t, rest) => do
    let cmd_argv ← cmd_argv.store cmd_argc t
    tokenize (strtok 0x20 rest) (cmd_argc + 1) cmd_argv
termination_by t.elim 0 fun p => p.2.length + 1
decreasing_by
  rcases hr : strtok 0x20 rest with _ | ⟨t', rest'⟩
  · simp
  · simpa using strtok_length hr

/-- Step 3; `forked` is what `fork` returns. -/
def execute (cmd_argv : Argv) (forked : Int32) : Except Violation (List ConsoleCall) := do
  if 0 = strcmp (← cmd_argv.arg 0) (str "execute") then
    match load (← cmd_argv.arg 1) with
    | some addr => return if 0 = forked then [.fork, .exec addr] else [.fork]
    | none => return [.puts (str "unknown program\n") 16]
  else if 0 = strcmp (← cmd_argv.arg 0) (str "terminate") then
    return [.kill (atoi (← cmd_argv.arg 1)) sigTerm]
  else
    return [.puts (str "unknown command\n") 16]

def mainConsole (cmd : Str) (forked : Int32) : Except Violation (List ConsoleCall) := do
  let cmd_argv ← tokenize (strtok 0x20 cmd) 0 Argv.empty
  execute cmd_argv forked

/-! ## Tokens -/

/-- Store the tokens from `cmd_argv[ i ]` on. -/
def storeAll : List Str → ℕ → Argv → Except Violation Argv
  | [], _, cmd_argv => .ok cmd_argv
  | t :: ts, i, cmd_argv => do
    let cmd_argv ← cmd_argv.store i t
    storeAll ts (i + 1) cmd_argv

/-- The loop stores the words of the line. -/
theorem tokenize_eq (s : Str) (i : ℕ) (cmd_argv : Argv) :
    tokenize (strtok 0x20 s) i cmd_argv = storeAll (words 0x20 s) i cmd_argv := by
  induction hn : s.length using Nat.strong_induction_on generalizing s i cmd_argv with
  | _ n ih =>
    rcases ht : strtok 0x20 s with _ | ⟨t, rest⟩
    · rw [strtok_none ht, tokenize, storeAll]
    · rw [strtok_some ht, tokenize, storeAll]
      rcases cmd_argv.store i t with e | cmd_argv
      · rfl
      · exact ih _ (hn ▸ strtok_length ht) _ _ _ rfl

/-- The array after the loop, by the number of words. -/
theorem storeAll_one (a : Str) : storeAll [a] 0 Argv.empty = .ok (Argv.of (some a) none) := rfl

theorem storeAll_two (a b : Str) :
    storeAll [a, b] 0 Argv.empty = .ok (Argv.of (some a) (some b)) := rfl

/-- A third word has no place. -/
theorem storeAll_three (a b c : Str) (ts : List Str) :
    storeAll (a :: b :: c :: ts) 0 Argv.empty = .error (.store 2) := rfl

theorem mainConsole_eq (cmd : Str) (forked : Int32) :
    mainConsole cmd forked =
      storeAll (words 0x20 cmd) 0 Argv.empty >>= fun cmd_argv => execute cmd_argv forked := by
  rw [mainConsole, tokenize_eq]

theorem ok_bind {ε α β : Type} (a : α) (f : α → Except ε β) : (Except.ok a >>= f) = f a := rfl

theorem error_bind {ε α β : Type} (e : ε) (f : α → Except ε β) :
    ((Except.error e : Except ε α) >>= f) = .error e := rfl

/-- A command of one word, -/
theorem execute_one (a : Str) (forked : Int32) :
    execute (Argv.of (some a) none) forked =
      if a = str "execute" ∨ a = str "terminate" then .error (.unassigned 1)
      else .ok [.puts (str "unknown command\n") 16] := by
  have h0 : (Argv.of (some a) none).arg 0 = .ok a := rfl
  have h1 : (Argv.of (some a) none).arg 1 = .error (.unassigned 1) := rfl
  unfold execute
  simp only [h0, h1, ok_bind, error_bind, strcmp_eq_zero_iff]
  by_cases he : a = str "execute"
  · rw [if_pos he, if_pos (Or.inl he)]
  · rw [if_neg he]
    by_cases ht : a = str "terminate"
    · rw [if_pos ht, if_pos (Or.inr ht)]
    · rw [if_neg ht, if_neg (not_or.2 ⟨he, ht⟩)]
      rfl

/-- and of two. -/
theorem execute_two (a b : Str) (forked : Int32) :
    ∃ calls, execute (Argv.of (some a) (some b)) forked = .ok calls := by
  have h0 : (Argv.of (some a) (some b)).arg 0 = .ok a := rfl
  have h1 : (Argv.of (some a) (some b)).arg 1 = .ok b := rfl
  unfold execute
  simp only [h0, h1, ok_bind]
  split
  · split
    · exact ⟨_, rfl⟩
    · exact ⟨_, rfl⟩
  · split
    · exact ⟨_, rfl⟩
    · exact ⟨_, rfl⟩

/-! ## Safety -/

/-- A command line as `gets` leaves it. -/
structure CmdLine where
  chars : Str
  nul_notMem : 0 ∉ chars
  length_lt : chars.length < maxCmdChars

/-- The iteration stores within `cmd_argv` and uses only what it has stored there. -/
def Safe (cmd : CmdLine) : Prop := ∀ forked, ∃ calls, mainConsole cmd.chars forked = .ok calls

theorem not_safe_of_error {cmd : CmdLine} {v : Violation} (h : mainConsole cmd.chars 0 = .error v) :
    ¬ Safe cmd := by
  intro hs
  obtain ⟨calls, hc⟩ := hs 0
  rw [h] at hc
  cases hc

theorem not_safe_none {cmd : CmdLine} (h : words 0x20 cmd.chars = []) : ¬ Safe cmd :=
  not_safe_of_error (v := .unassigned 0) (by rw [mainConsole_eq, h]; rfl)

/-- **An iteration is safe exactly for two words, and for one that takes no argument.** -/
theorem safe_iff (cmd : CmdLine) : Safe cmd ↔ (words 0x20 cmd.chars).length = 2 ∨
    ∃ a, words 0x20 cmd.chars = [a] ∧ a ≠ str "execute" ∧ a ≠ str "terminate" := by
  rcases hw : words 0x20 cmd.chars with _ | ⟨a, _ | ⟨b, _ | ⟨c, ts⟩⟩⟩
  · -- nothing to compare with a command
    exact iff_of_false (not_safe_none hw) (by simp)
  · constructor
    · intro hs
      obtain ⟨calls, hc⟩ := hs 0
      rw [mainConsole_eq, hw, storeAll_one, ok_bind, execute_one] at hc
      split at hc
      · cases hc
      · rename_i ha
        exact Or.inr ⟨a, rfl, not_or.1 ha⟩
    · intro h
      have ha : ¬ (a = str "execute" ∨ a = str "terminate") := by simpa using h
      intro forked
      rw [mainConsole_eq, hw, storeAll_one, ok_bind, execute_one, if_neg ha]
      exact ⟨_, rfl⟩
  · refine iff_of_true ?_ (Or.inl rfl)
    intro forked
    rw [mainConsole_eq, hw, storeAll_two, ok_bind]
    exact execute_two a b forked
  · -- the third word is stored after the end of the array
    refine iff_of_false (not_safe_of_error (v := .store 2) ?_) (by simp)
    rw [mainConsole_eq, hw, storeAll_three]
    rfl

/-- An empty line. -/
theorem not_safe_empty : ¬ Safe ⟨[], by simp, by decide⟩ := not_safe_none words_nil

end CcKernel
