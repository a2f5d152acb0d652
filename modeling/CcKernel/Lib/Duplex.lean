/-
  A sequential program and a line server, connected by a lossless in-order byte
  channel in each direction.

  The two run at their own speed: `Step` lets either move whenever it can.  Two
  moves that are possible at once commute, so every run comes to the same end
  (`Settles`), and `settle` computes it by letting the server answer each line
  as soon as it is complete.
-/
import Mathlib.Tactic

namespace Duplex

/-! ## Runs of a relation with the diamond property -/

section Diamond

variable {α : Type*} {r : α → α → Prop}

inductive Steps (r : α → α → Prop) : ℕ → α → α → Prop
  | refl (a) : Steps r 0 a a
  | head {n a b c} : r a b → Steps r n b c → Steps r (n + 1) a c

def Normal (r : α → α → Prop) (a : α) : Prop := ∀ b, ¬ r a b

/-- Two different steps can be joined by one more each. -/
def Diamond (r : α → α → Prop) : Prop :=
  ∀ a b c, r a b → r a c → b = c ∨ ∃ d, r b d ∧ r c d

/-- **Every run from `a` comes to `t`**, after the same number of steps, and
    stops there. -/
def Settles (r : α → α → Prop) (a t : α) : Prop :=
  Normal r t ∧ ∃ n, ∀ k b, Steps r k a b → ∃ j, k + j = n ∧ Steps r j b t

theorem Steps.trans {n k : ℕ} {a b c : α} (h : Steps r n a b) (h' : Steps r k b c) :
    Steps r (n + k) a c := by
  induction h with
  | refl => rwa [Nat.zero_add]
  | head hs _ ih =>
    rw [Nat.succ_add]
    exact .head hs (ih h')

theorem Steps.zero {a b : α} (h : Steps r 0 a b) : a = b := by
  cases h
  rfl

/-- A first step other than the run's own costs nothing. -/
theorem Steps.reroute (hd : Diamond r) {n : ℕ} {a t : α} (h : Steps r n a t) (ht : Normal r t)
    {b : α}
    (hb : r a b) : ∃ m, n = m + 1 ∧ Steps r m b t := by
  induction h generalizing b with
  | refl => exact absurd hb (ht b)
  | @head n a c t hac hct ih =>
    rcases hd a b c hb hac with rfl | ⟨d, hbd, hcd⟩
    · exact ⟨n, rfl, hct⟩
    · obtain ⟨m, rfl, hdt⟩ := ih ht hcd
      exact ⟨m + 1, rfl, .head hbd hdt⟩

/-- With the diamond property one run that stops is enough. -/
theorem Settles.of_steps (hd : Diamond r) {n : ℕ} {a t : α} (h : Steps r n a t) (ht : Normal r t) :
    Settles r a t := by
  refine ⟨ht, n, fun k b hk => ?_⟩
  induction hk generalizing n with
  | refl => exact ⟨n, Nat.zero_add n, h⟩
  | @head k a c b hac _ ih =>
    obtain ⟨m, rfl, hct⟩ := h.reroute hd ht hac
    obtain ⟨j, hj, hbt⟩ := ih hct
    exact ⟨j, by omega, hbt⟩

/-- Where a run ends is unique. -/
theorem Settles.unique {a t : α} (h : Settles r a t) {n : ℕ} {b : α} (hb : Steps r n a b)
    (hn : Normal r b) : b = t := by
  obtain ⟨-, N, hN⟩ := h
  obtain ⟨j, -, hj⟩ := hN n b hb
  cases hj with
  | refl => rfl
  | head hs _ => exact absurd hs (hn _)

end Diamond

/-! ## Programs -/

/-- A program that sends and receives bytes. -/
inductive Prog (α : Type) where
  | ret (a : α)
  | put (b : UInt8) (k : Prog α)
  | get (k : UInt8 → Prog α)

namespace Prog

variable {α β γ : Type}

protected def bind : Prog α → (α → Prog β) → Prog β
  | ret a, f => f a
  | put b k, f => put b (k.bind f)
  | get k, f => get fun b => (k b).bind f

instance : Monad Prog where
  pure := ret
  bind := Prog.bind

@[simp] theorem ret_bind (a : α) (f : α → Prog β) : ret a >>= f = f a := rfl
@[simp] theorem put_bind (b : UInt8) (k : Prog α) (f : α → Prog β) :
    put b k >>= f = put b (k >>= f) := rfl
@[simp] theorem get_bind (k : UInt8 → Prog α) (f : α → Prog β) :
    get k >>= f = get fun b => k b >>= f := rfl

theorem bind_ret (p : Prog α) : p >>= ret = p := by
  induction p with
  | ret a => rfl
  | put b k ih => rw [put_bind, ih]
  | get k ih => rw [get_bind]; exact congrArg get (funext ih)

theorem bind_assoc' (p : Prog α) (f : α → Prog β) (g : β → Prog γ) :
    p >>= f >>= g = p >>= fun a => f a >>= g := by
  induction p with
  | ret a => rfl
  | put b k ih => simp only [put_bind, ih]
  | get k ih => simp only [get_bind]; exact congrArg get (funext ih)

instance : LawfulMonad Prog :=
  LawfulMonad.mk' Prog (fun p => bind_ret p) (fun _ _ => rfl) bind_assoc'

end Prog

/-! ## The system -/

variable {ε σ α β : Type}

/-- `\n`, the end of a request line. -/
abbrev eol : UInt8 := 10

/-- A server answers a line, or raises an exception. -/
abbrev Server (ε σ : Type) : Type := σ → List UInt8 → Except ε (List UInt8 × σ)

/-- A program, the bytes on their way in each direction, and the state of the
    server, or the exception that has ended it. -/
structure Sys (ε σ α : Type) where
  prog : Prog α
  toServer : List UInt8
  toProg : List UInt8
  server : Except ε σ

/-- What the server does with a line: the bytes it sends, and what becomes of it. -/
def Server.answer (srv : Server ε σ) (st : σ) (line : List UInt8) : List UInt8 × Except ε σ :=
  match srv st line with
  | .ok (reply, st') => (reply, .ok st')
  | .error e => ([], .error e)

theorem Server.answer_ok {srv : Server ε σ} {st st' : σ} {line reply : List UInt8}
    (h : srv st line = .ok (reply, st')) : srv.answer st line = (reply, .ok st') := by
  unfold answer; rw [h]

theorem Server.answer_error {srv : Server ε σ} {st : σ} {line : List UInt8} {e : ε}
    (h : srv st line = .error e) : srv.answer st line = ([], .error e) := by
  unfold answer; rw [h]

inductive Step (srv : Server ε σ) : Sys ε σ α → Sys ε σ α → Prop
  | put (b k u d s) : Step srv ⟨.put b k, u, d, s⟩ ⟨k, u ++ [b], d, s⟩
  | get (k u b d s) : Step srv ⟨.get k, u, b :: d, s⟩ ⟨k b, u, d, s⟩
  | serve {line u} (p rest d st) : eol ∉ line → u = line ++ eol :: rest →
      Step srv ⟨p, u, d, .ok st⟩ ⟨p, rest, d ++ (srv.answer st line).1, (srv.answer st line).2⟩

/-- A line is cut off in one way. -/
theorem cut_unique {x y z w : List UInt8} (hx : eol ∉ x) (hy : eol ∉ y)
    (h : x ++ eol :: z = y ++ eol :: w) : x = y ∧ z = w := by
  induction x generalizing y with
  | nil =>
    rcases y with _ | ⟨b, y⟩
    · exact ⟨rfl, by simpa using h⟩
    · simp only [List.nil_append, List.cons_append, List.cons.injEq] at h
      exact absurd (by simp [← h.1]) hy
  | cons a x ih =>
    rcases y with _ | ⟨b, y⟩
    · simp only [List.nil_append, List.cons_append, List.cons.injEq] at h
      exact absurd (by simp [h.1]) hx
    · simp only [List.cons_append, List.cons.injEq] at h
      obtain ⟨rfl, rfl⟩ := ih (fun hx' => hx (List.mem_cons_of_mem _ hx'))
        (fun hy' => hy (List.mem_cons_of_mem _ hy')) h.2
      exact ⟨by rw [h.1], rfl⟩

/-- The program and the server do not get in each other's way. -/
theorem diamond_step (srv : Server ε σ) : Diamond (@Step ε σ α srv) := by
  intro a b c hb hc
  cases hb with
  | put x k u d s =>
    cases hc with
    | put => exact Or.inl rfl
    | serve _ rest _ st hl hu =>
      refine Or.inr ⟨_, .serve k (rest ++ [x]) d st hl ?_, .put x k rest _ _⟩
      rw [hu, List.append_assoc, List.cons_append]
  | get k u x d s =>
    cases hc with
    | get => exact Or.inl rfl
    | serve _ rest _ st hl hu =>
      exact Or.inr ⟨_, .serve (k x) rest d st hl hu, .get k rest x _ _⟩
  | serve p rest d st hl hu =>
    cases hc with
    | put x k =>
      refine Or.inr ⟨_, .put x k rest _ _, .serve k (rest ++ [x]) d st hl ?_⟩
      rw [hu, List.append_assoc, List.cons_append]
    | get k _ x d =>
      exact Or.inr ⟨_, .get k rest x _ _, .serve (k x) rest d st hl hu⟩
    | serve _ rest' _ _ hl' hu' =>
      obtain ⟨rfl, rfl⟩ := cut_unique hl hl' (hu.symm.trans hu')
      exact Or.inl rfl

/-- One step receives at most one byte. -/
theorem Steps.toProg_le {srv : Server ε σ} {n : ℕ} {a b : Sys ε σ α} (h : Steps (Step srv) n a b) :
    a.toProg.length ≤ n + b.toProg.length := by
  induction h with
  | refl a => rw [Nat.zero_add]
  | head hs _ ih =>
    cases hs with
    | put => simp only at ih ⊢; omega
    | get => simp only [List.length_cons] at ih ⊢; omega
    | serve => simp only [List.length_append] at ih ⊢; omega

/-- The end of a run, if the server answers every line at once. -/
def settle (srv : Server ε σ) : Prog α → List UInt8 → List UInt8 → Except ε σ → Sys ε σ α
  | .ret a, u, d, s => ⟨.ret a, u, d, s⟩
  | .put b k, u, d, .ok st =>
    if b = eol then settle srv k [] (d ++ (srv.answer st u).1) (srv.answer st u).2
    else settle srv k (u ++ [b]) d (.ok st)
  | .put b k, u, d, .error e => settle srv k (u ++ [b]) d (.error e)
  | .get k, u, [], s => ⟨.get k, u, [], s⟩
  | .get k, u, b :: d, s => settle srv (k b) u d s

/-- The server has not left a complete line unread. -/
def Idle (u : List UInt8) : Except ε σ → Prop
  | .ok _ => eol ∉ u
  | .error _ => True

theorem normal_of_idle {srv : Server ε σ} {p : Prog α} {u d : List UInt8} {s : Except ε σ}
    (hu : Idle u s) (hput : ∀ b k, p ≠ .put b k) (hget : ∀ k, p = .get k → d = []) :
    Normal (Step srv) ⟨p, u, d, s⟩ := by
  intro b hb
  cases hb with
  | put x k => exact hput x k rfl
  | get k _ x d => cases hget k rfl
  | serve _ rest _ st hl hu' =>
    refine hu ?_
    rw [hu']
    simp

/-- **Every interleaving ends as `settle` says.** -/
theorem settles_settle (srv : Server ε σ) (p : Prog α) {u d : List UInt8} {s : Except ε σ}
    (hu : Idle u s) : Settles (Step srv) ⟨p, u, d, s⟩ (settle srv p u d s) := by
  suffices h : (∃ n, Steps (Step srv) n ⟨p, u, d, s⟩ (settle srv p u d s)) ∧
      Normal (Step srv) (settle srv p u d s) by
    obtain ⟨⟨n, hn⟩, ht⟩ := h
    exact .of_steps (diamond_step srv) hn ht
  induction p generalizing u d s with
  | ret a => exact ⟨⟨0, .refl _⟩, normal_of_idle hu (by simp) (by simp)⟩
  | put b k ih =>
    rcases s with e | st
    · obtain ⟨⟨n, hn⟩, ht⟩ := ih (u := u ++ [b]) (d := d) (s := .error e) trivial
      exact ⟨⟨n + 1, .head (.put b k u d _) hn⟩, ht⟩
    · by_cases hb : b = eol
      · subst hb
        have hidle : Idle [] (srv.answer st u).2 := by
          cases (srv.answer st u).2 <;> simp [Idle]
        obtain ⟨⟨n, hn⟩, ht⟩ := ih (d := d ++ (srv.answer st u).1) hidle
        rw [settle, if_pos rfl]
        exact ⟨⟨n + 2, .head (.put eol k u d _) (.head (.serve k [] d st hu rfl) hn)⟩, ht⟩
      · have hidle : Idle (u ++ [b]) (.ok st : Except ε σ) := by
          simpa [Idle, Ne.symm hb] using hu
        obtain ⟨⟨n, hn⟩, ht⟩ := ih (d := d) hidle
        rw [settle, if_neg hb]
        exact ⟨⟨n + 1, .head (.put b k u d _) hn⟩, ht⟩
  | get k ih =>
    rcases d with _ | ⟨b, d⟩
    · exact ⟨⟨0, .refl _⟩, normal_of_idle hu (by simp) (by simp)⟩
    · obtain ⟨⟨n, hn⟩, ht⟩ := ih b (d := d) hu
      exact ⟨⟨n + 1, .head (.get k u b d _) hn⟩, ht⟩

/-! ## Rules for `settle` -/

variable {srv : Server ε σ}

/-- What follows a program goes on from where the program has come. -/
theorem settle_bind (p : Prog α) (f : α → Prog β) (u d : List UInt8) (s : Except ε σ) :
    settle srv (p >>= f) u d s =
      settle srv ((settle srv p u d s).prog >>= f) (settle srv p u d s).toServer
        (settle srv p u d s).toProg (settle srv p u d s).server := by
  induction p generalizing u d s with
  | ret a => rfl
  | put b k ih =>
    rcases s with e | st
    · exact ih (u ++ [b]) d (.error e)
    · rw [Prog.put_bind]
      by_cases hb : b = eol
      · simp only [settle, if_pos hb]
        exact ih _ _ _
      · simp only [settle, if_neg hb]
        exact ih _ _ _
  | get k ih =>
    rcases d with _ | ⟨b, d⟩
    · rfl
    · exact ih b u d s

theorem settle_bind_ret {p : Prog α} {a : α} {u d u' d' : List UInt8} {s s' : Except ε σ}
    (h : settle srv p u d s = ⟨.ret a, u', d', s'⟩) (f : α → Prog β) :
    settle srv (p >>= f) u d s = settle srv (f a) u' d' s' := by
  rw [settle_bind, h]
  rfl

/-- A program that waits for a byte keeps what follows it waiting. -/
theorem settle_bind_get {p : Prog α} {k : UInt8 → Prog α} {u d u' : List UInt8} {s s' : Except ε σ}
    (h : settle srv p u d s = ⟨.get k, u', [], s'⟩) (f : α → Prog β) :
    settle srv (p >>= f) u d s = ⟨.get fun b => k b >>= f, u', [], s'⟩ := by
  rw [settle_bind, h]
  rfl

/-! ### Sending -/

/-- Send the bytes. -/
def puts : List UInt8 → Prog Unit
  | [] => .ret ()
  | b :: bs => .put b (puts bs)

theorem puts_append (bs cs : List UInt8) : puts (bs ++ cs) = puts bs >>= fun _ => puts cs := by
  induction bs with
  | nil => rfl
  | cons b bs ih => rw [List.cons_append, puts, ih, puts, Prog.put_bind]

theorem settle_puts {bs : List UInt8} (h : eol ∉ bs) (u d : List UInt8) (s : Except ε σ) :
    settle srv (puts bs) u d s = ⟨.ret (), u ++ bs, d, s⟩ := by
  induction bs generalizing u with
  | nil => rw [List.append_nil]; rfl
  | cons b bs ih =>
    have hb : b ≠ eol := fun hb => h (by simp [hb])
    have hbs : eol ∉ bs := fun hb => h (List.mem_cons_of_mem _ hb)
    rcases s with e | st
    · rw [puts, settle, ih hbs, List.append_assoc]; rfl
    · rw [puts, settle, if_neg hb, ih hbs, List.append_assoc]; rfl

/-- A complete line is answered. -/
theorem settle_puts_line {line : List UInt8} (h : eol ∉ line) (d : List UInt8) (st : σ)
    (f : Unit → Prog α) :
    settle srv (puts (line ++ [eol]) >>= f) [] d (.ok st) =
      settle srv (f ()) [] (d ++ (srv.answer st line).1) (srv.answer st line).2 := by
  refine settle_bind_ret ?_ f
  rw [puts_append, settle_bind_ret (settle_puts h [] d (.ok st)), List.nil_append]
  rfl

/-! ### Receiving -/

/-- The program receives exactly the bytes, sends nothing and returns `a`. -/
def Yields : Prog α → List UInt8 → α → Prop
  | .ret a', [], a => a' = a
  | .get k, b :: bs, a => Yields (k b) bs a
  | _, _, _ => False

/-- The program receives `n` bytes, sends nothing and returns. -/
def Receives : Prog α → ℕ → Prop
  | .ret _, 0 => True
  | .get k, n + 1 => ∀ b, Receives (k b) n
  | _, _ => False

theorem Yields.bind {p : Prog α} {f : α → Prog β} {bs cs : List UInt8} {a : α} {b : β}
    (h : Yields p bs a) (h' : Yields (f a) cs b) : Yields (p >>= f) (bs ++ cs) b := by
  induction p generalizing bs with
  | ret a' =>
    rcases bs with _ | ⟨c, bs⟩
    · obtain rfl : a' = a := h
      exact h'
    · exact h.elim
  | put c k => cases bs <;> exact h.elim
  | get k ih =>
    rcases bs with _ | ⟨c, bs⟩
    · exact h.elim
    · exact ih c h

theorem Yields.settle {p : Prog α} {bs : List UInt8} {a : α} (h : Yields p bs a) (u d : List UInt8)
    (s : Except ε σ) : settle srv p u (bs ++ d) s = ⟨.ret a, u, d, s⟩ := by
  induction p generalizing bs with
  | ret a' =>
    rcases bs with _ | ⟨c, bs⟩
    · obtain rfl : a' = a := h
      rfl
    · exact h.elim
  | put c k => cases bs <;> exact h.elim
  | get k ih =>
    rcases bs with _ | ⟨c, bs⟩
    · exact h.elim
    · exact ih c h

theorem Receives.bind {p : Prog α} {f : α → Prog β} {n k : ℕ} (h : Receives p n)
    (h' : ∀ a, Receives (f a) k) : Receives (p >>= f) (n + k) := by
  induction p generalizing n with
  | ret a =>
    rcases n with _ | n
    · rw [Nat.zero_add]; exact h' a
    · exact h.elim
  | put c q => cases n <;> exact h.elim
  | get q ih =>
    rcases n with _ | n
    · exact h.elim
    · rw [Nat.succ_add]
      exact fun b => ih b (h b)

/-- With too few bytes on their way the program waits for ever, -/
theorem Receives.blocked {p : Prog α} {n : ℕ} (h : Receives p n) {d : List UInt8}
    (hd : d.length < n)
    (u : List UInt8) (s : Except ε σ) : ∃ k, settle srv p u d s = ⟨.get k, u, [], s⟩ := by
  induction p generalizing n d with
  | ret a =>
    rcases n with _ | n
    · simp at hd
    · exact h.elim
  | put c q => cases n <;> exact h.elim
  | get q ih =>
    rcases n with _ | n
    · exact h.elim
    · rcases d with _ | ⟨b, d⟩
      · exact ⟨q, rfl⟩
      · exact ih b (h b) (by simpa using hd)

/-- with enough it leaves the rest. -/
theorem Receives.returns {p : Prog α} {n : ℕ} (h : Receives p n) {d : List UInt8}
    (hd : n ≤ d.length)
    (u : List UInt8) (s : Except ε σ) :
    ∃ a, settle srv p u d s = ⟨.ret a, u, d.drop n, s⟩ := by
  induction p generalizing n d with
  | ret a =>
    rcases n with _ | n
    · exact ⟨a, rfl⟩
    · exact h.elim
  | put c q => cases n <;> exact h.elim
  | get q ih =>
    rcases n with _ | n
    · exact h.elim
    · rcases d with _ | ⟨b, d⟩
      · simp at hd
      · exact ih b (h b) (by simpa using hd)

/-! ### Calls -/

/-- A call with nothing on its way in either direction returns `a` and leaves
    nothing on its way. -/
def Calls (srv : Server ε σ) (p : Prog α) (st : σ) (a : α) (st' : σ) : Prop :=
  settle srv p [] [] (.ok st) = ⟨.ret a, [], [], .ok st'⟩

/-- A call waits for ever for a server that has raised an exception. -/
def Hangs (srv : Server ε σ) (p : Prog α) (st : σ) (e : ε) : Prop :=
  ∃ k, settle srv p [] [] (.ok st) = ⟨.get k, [], [], .error e⟩

theorem Calls.bind {p : Prog α} {f : α → Prog β} {st st' st'' : σ} {a : α} {b : β}
    (h : Calls srv p st a st') (h' : Calls srv (f a) st' b st'') : Calls srv (p >>= f) st b st'' :=
  (settle_bind_ret h f).trans h'

theorem Hangs.bind {p : Prog α} {st : σ} {e : ε} (h : Hangs srv p st e) (f : α → Prog β) :
    Hangs srv (p >>= f) st e := by
  obtain ⟨k, hk⟩ := h
  exact ⟨_, settle_bind_get hk f⟩

/-- The calls before one that waits for ever do not help it. -/
theorem Calls.hangs {p : Prog α} {f : α → Prog β} {st st' : σ} {a : α} {e : ε}
    (h : Calls srv p st a st') (h' : Hangs srv (f a) st' e) : Hangs srv (p >>= f) st e := by
  obtain ⟨k, hk⟩ := h'
  exact ⟨k, (settle_bind_ret h f).trans hk⟩

theorem Calls.ret (a : α) (st : σ) : Calls srv (.ret a) st a st := rfl

/-- A call that returns does not hang, and what it returns is unique. -/
theorem Calls.unique {p : Prog α} {st st' st'' : σ} {a b : α} (h : Calls srv p st a st')
    (h' : Calls srv p st b st'') : a = b ∧ st' = st'' := by
  have := h.symm.trans h'
  simpa using this

theorem Hangs.not_calls {p : Prog α} {st st' : σ} {e : ε} {a : α} (h : Hangs srv p st e) :
    ¬ Calls srv p st a st' := by
  obtain ⟨k, hk⟩ := h
  intro h'
  have := hk.symm.trans h'
  simp at this

/-- Send a line, receive the reply. -/
theorem calls_exchange {line reply : List UInt8} (hline : eol ∉ line) {st st' : σ} {p : Prog α}
    {a : α}
    (hs : srv st line = .ok (reply, st')) (hp : Yields p reply a) :
    Calls srv (puts (line ++ [eol]) >>= fun _ => p) st a st' := by
  have h : settle srv p [] (reply ++ []) (.ok st') = _ := hp.settle [] [] (.ok st')
  rw [List.append_nil] at h
  unfold Calls
  rw [settle_puts_line hline, Server.answer_ok hs, List.nil_append]
  exact h

/-- Send a line that the server does not survive. -/
theorem hangs_exchange {line : List UInt8} (hline : eol ∉ line) {st : σ} {e : ε} {p : Prog α}
    {q : UInt8 → Prog α} (hs : srv st line = .error e) (hp : p = .get q) :
    Hangs srv (puts (line ++ [eol]) >>= fun _ => p) st e := by
  refine ⟨q, ?_⟩
  rw [settle_puts_line hline, Server.answer_error hs, hp]
  rfl

/-- A call returns in one interleaving and so in every interleaving. -/
theorem calls_iff_settles {p : Prog α} {st st' : σ} {a : α} :
    Calls srv p st a st' ↔ Settles (Step srv) ⟨p, [], [], .ok st⟩ ⟨.ret a, [], [], .ok st'⟩ := by
  have hs : Settles (Step srv) ⟨p, [], [], .ok st⟩ (settle srv p [] [] (.ok st)) :=
    settles_settle srv p (by simp [Idle])
  constructor
  · intro h
    rwa [h] at hs
  · intro h
    obtain ⟨hn, n, hr⟩ := hs
    obtain ⟨j, -, hj⟩ := hr 0 _ (.refl _)
    exact h.unique hj hn

/-! ### What follows a call -/

/-- The server says something whenever it survives. -/
def Talks (srv : Server ε σ) :
    Prop := ∀ st line reply st', srv st line = .ok (reply, st') → reply ≠ []

theorem Step.bind_cases {p : Prog α} {f : α → Prog β} {u d : List UInt8} {s : Except ε σ}
    {t : Sys ε σ β} (h : Step srv ⟨p >>= f, u, d, s⟩ t) :
    (∃ a, p = .ret a) ∨ ∃ q u' d' s', t = ⟨q >>= f, u', d', s'⟩ ∧
      Step srv ⟨p, u, d, s⟩ ⟨q, u', d', s'⟩ := by
  rcases p with a | ⟨b, k⟩ | k
  · exact Or.inl ⟨a, rfl⟩
  · right
    cases h with
    | put => exact ⟨_, _, _, _, rfl, .put b k u d s⟩
    | serve _ rest _ st hl hu => exact ⟨.put b k, _, _, _, rfl, .serve _ rest d st hl hu⟩
  · right
    cases h with
    | get _ _ b d => exact ⟨_, _, _, _, rfl, .get k u b d s⟩
    | serve _ rest _ st hl hu => exact ⟨.get k, _, _, _, rfl, .serve _ rest d st hl hu⟩

/-- A program that has returned, with nothing left to receive in the end, is at
    the end. -/
theorem steps_ret (ht : Talks srv) {n : ℕ} {a b : α} {u u' d : List UInt8} {s : Except ε σ} {st : σ}
    (h : Steps (Step srv) n ⟨.ret b, u, d, s⟩ ⟨.ret a, u', [], .ok st⟩) : n = 0 := by
  induction n generalizing u d s with
  | zero => rfl
  | succ n ih =>
    cases h with
    | head hs hr =>
      cases hs with
      | @serve line _ _ rest _ st₀ _ _ =>
        obtain rfl := ih hr
        have heq := hr.zero
        rcases hans : srv st₀ line with e | r
        · rw [Server.answer_error hans] at heq
          simp at heq
        · rw [Server.answer_ok hans] at heq
          have hnil : r.1 = [] := by simp_all
          exact absurd hnil (ht _ _ _ _ hans)

/-- **What follows a call starts with nothing on its way in either direction**: a
    run is still in the call, or has gone through that state. -/
theorem Calls.steps_bind (ht : Talks srv) {p : Prog α} {st st' : σ} {a : α}
    (h : Calls srv p st a st')
    (f : α → Prog β) {n : ℕ} {t : Sys ε σ β} (hr : Steps (Step srv) n ⟨p >>= f, [], [], .ok st⟩ t) :
    (∃ q u d s, t = ⟨q >>= f, u, d, s⟩ ∧ Steps (Step srv) n ⟨p, [], [], .ok st⟩ ⟨q, u, d, s⟩) ∨
      ∃ k, k ≤ n ∧ Steps (Step srv) (n - k) ⟨f a, [], [], .ok st'⟩ t := by
  have hset := (calls_iff_settles.1 h).2
  suffices hgen : ∀ m k q u d s, Steps (Step srv) k ⟨p, [], [], .ok st⟩ ⟨q, u, d, s⟩ →
      Steps (Step srv) m ⟨q >>= f, u, d, s⟩ t →
      (∃ q u d s, t = ⟨q >>= f, u, d, s⟩ ∧
        Steps (Step srv) (k + m) ⟨p, [], [], .ok st⟩ ⟨q, u, d, s⟩) ∨
        ∃ j, j ≤ k + m ∧ Steps (Step srv) (k + m - j) ⟨f a, [], [], .ok st'⟩ t by
    simpa using hgen n 0 p [] [] (.ok st) (.refl _) hr
  intro m
  induction m with
  | zero =>
    intro k q u d s hk hm
    cases hm
    exact Or.inl ⟨q, u, d, s, rfl, hk⟩
  | succ m ih =>
    intro k q u d s hk hm
    cases hm with
    | @head _ _ c _ hs hm' =>
      rcases hs.bind_cases with ⟨b, rfl⟩ | ⟨q', u', d', s', rfl, hq⟩
      · obtain ⟨N, hN⟩ := hset
        obtain ⟨j, -, hj⟩ := hN _ _ hk
        obtain rfl := steps_ret ht hj
        cases hj
        exact Or.inr ⟨k, Nat.le_add_right _ _, by rw [Nat.add_sub_cancel_left]; exact .head hs hm'⟩
      · have hk' : Steps (Step srv) (k + 1) ⟨p, [], [], .ok st⟩ ⟨q', u', d', s'⟩ :=
          hk.trans (.head hq (.refl _))
        have h' := ih (k + 1) q' u' d' s' hk' hm'
        rwa [show k + 1 + m = k + (m + 1) by omega] at h'

/-! ## Servers that answer alike -/

section Mirrors

variable {τ : Type} {srv' : Server ε τ} {R : σ → τ → Prop}

/-- In related states, or ended by the same exception. -/
inductive Alike (R : σ → τ → Prop) : Except ε σ → Except ε τ → Prop
  | ok {st st'} : R st st' → Alike R (.ok st) (.ok st')
  | error (e) : Alike R (.error e) (.error e)

/-- The two servers answer every line alike. -/
def Mirrors (srv : Server ε σ) (srv' : Server ε τ) (R : σ → τ → Prop) : Prop :=
  ∀ st st' line, R st st' → (srv.answer st line).1 = (srv'.answer st' line).1 ∧
    Alike R (srv.answer st line).2 (srv'.answer st' line).2

theorem Alike.symm {s : Except ε σ} {s' : Except ε τ} (h : Alike R s s') :
    Alike (fun st' st => R st st') s' s := by
  cases h with
  | ok h => exact .ok h
  | error e => exact .error e

theorem Mirrors.symm (h : Mirrors srv srv' R) : Mirrors srv' srv fun st' st => R st st' := by
  intro st' st line hR
  obtain ⟨hreply, hstate⟩ := h st st' line hR
  exact ⟨hreply.symm, hstate.symm⟩

theorem Mirrors.step (h : Mirrors srv srv' R) {a b : Sys ε σ α} (hs : Step srv a b)
    {s' : Except ε τ} (ha : Alike R a.server s') :
    ∃ t', Step srv' ⟨a.prog, a.toServer, a.toProg, s'⟩ ⟨b.prog, b.toServer, b.toProg, t'⟩ ∧
      Alike R b.server t' := by
  cases hs with
  | put b k u d s => exact ⟨s', .put b k u d s', ha⟩
  | get k u b d s => exact ⟨s', .get k u b d s', ha⟩
  | @serve line u p rest d st hl hu =>
    cases ha with
    | @ok _ st' hR =>
      obtain ⟨hreply, hstate⟩ := h st st' line hR
      refine ⟨(srv'.answer st' line).2, ?_, hstate⟩
      rw [hreply]
      exact .serve p rest d st' hl hu

/-- **A program cannot tell the two servers apart**, in any interleaving. -/
theorem Mirrors.steps (h : Mirrors srv srv' R) {n : ℕ} {a b : Sys ε σ α}
    (hs : Steps (Step srv) n a b) {s' : Except ε τ} (ha : Alike R a.server s') :
    ∃ t', Steps (Step srv') n ⟨a.prog, a.toServer, a.toProg, s'⟩
        ⟨b.prog, b.toServer, b.toProg, t'⟩ ∧ Alike R b.server t' := by
  induction hs generalizing s' with
  | refl a => exact ⟨s', .refl _, ha⟩
  | head hs _ ih =>
    obtain ⟨t₁, hs₁, ha₁⟩ := h.step hs ha
    obtain ⟨t', hs', ha'⟩ := ih ha₁
    exact ⟨t', .head hs₁ hs', ha'⟩

end Mirrors

end Duplex
