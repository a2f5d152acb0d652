/-
  A program on its own, against the bytes that arrive for it.

  `run` computes what a program sends and returns, and what it leaves unread.
-/
import CcKernel.Lib.Duplex

namespace Duplex

variable {α β : Type}

/-- What a program has returned and sent, and the bytes it has not received. -/
@[ext] structure Exchange (α : Type) where
  result : α
  sent : List UInt8
  rest : List UInt8
  deriving DecidableEq

/-- The same, after other bytes have been sent. -/
def Exchange.after (bs : List UInt8) (e : Exchange α) : Exchange α :=
  { e with sent := bs ++ e.sent }

/-- Nothing, if the program waits for more bytes. -/
def run : Prog α → List UInt8 → Option (Exchange α)
  | .ret a, d => some ⟨a, [], d⟩
  | .put b k, d => (run k d).map (.after [b])
  | .get _, [] => none
  | .get k, b :: d => run (k b) d

theorem Exchange.after_after (bs cs : List UInt8) (e : Exchange α) :
    (e.after cs).after bs = e.after (bs ++ cs) := by
  simp [Exchange.after]

theorem map_after (bs cs : List UInt8) (o : Option (Exchange α)) :
    (o.map (Exchange.after cs)).map (Exchange.after bs) = o.map (Exchange.after (bs ++ cs)) := by
  rw [Option.map_map]
  congr 1
  funext e
  exact e.after_after bs cs

@[simp] theorem run_ret (a : α) (d : List UInt8) : run (.ret a) d = some ⟨a, [], d⟩ := rfl

theorem run_put (b : UInt8) (k : Prog α) (d : List UInt8) :
    run (.put b k) d = (run k d).map (.after [b]) := rfl

/-- What follows a program goes on from what it has left. -/
theorem run_bind (p : Prog α) (f : α → Prog β) (d : List UInt8) :
    run (p >>= f) d = (run p d).bind fun e => (run (f e.result) e.rest).map (.after e.sent) := by
  induction p generalizing d with
  | ret a => simp [show (Exchange.after [] : Exchange β → Exchange β) = id from rfl]
  | put b k ih =>
    rw [Prog.put_bind, run_put, run_put, ih]
    rcases run k d with _ | e
    · rfl
    · exact map_after [b] e.sent _
  | get k ih =>
    rcases d with _ | ⟨b, d⟩
    · rfl
    · exact ih b d

theorem run_bind_of {p : Prog α} {d : List UInt8} {e : Exchange α} (h : run p d = some e)
    (f : α → Prog β) : run (p >>= f) d = (run (f e.result) e.rest).map (.after e.sent) := by
  rw [run_bind, h]
  rfl

theorem run_puts_bind (bs d : List UInt8) (f : Unit → Prog β) :
    run (puts bs >>= f) d = (run (f ()) d).map (.after bs) := by
  induction bs with
  | nil => exact Option.map_id'.symm
  | cons b bs ih => rw [puts, Prog.put_bind, run_put, ih, map_after, List.singleton_append]

theorem run_puts (bs d : List UInt8) : run (puts bs) d = some ⟨(), bs, d⟩ := by
  have h := run_puts_bind bs d Prog.ret
  rw [Prog.bind_ret] at h
  simpa [Exchange.after] using h

/-! ## Receiving -/

theorem Yields.run {p : Prog α} {bs : List UInt8} {a : α} (h : Yields p bs a) (d : List UInt8) :
    run p (bs ++ d) = some ⟨a, [], d⟩ := by
  induction p generalizing bs with
  | ret a' =>
    rcases bs with _ | ⟨c, bs⟩
    · obtain rfl : a' = a := h
      rfl
    · exact h.elim
  | put c k => cases bs <;> exact h.elim
  | get k ih =>
    rcases bs with _ | ⟨c, bs⟩
    · exact h.elim
    · exact ih c h

/-- The bytes determine the result. -/
theorem Yields.unique {p : Prog α} {bs : List UInt8} {a a' : α} (h : Yields p bs a)
    (h' : Yields p bs a') : a = a' := by
  have := (h.run []).symm.trans (h'.run [])
  simpa using this

theorem Receives.length {p : Prog α} {n : ℕ} (h : Receives p n) {bs : List UInt8} {a : α}
    (hy : Yields p bs a) : bs.length = n := by
  induction p generalizing n bs with
  | ret a' =>
    rcases bs with _ | ⟨b, bs⟩
    · rcases n with _ | n
      · rfl
      · exact h.elim
    · exact hy.elim
  | put c q => cases n <;> exact h.elim
  | get q ih =>
    rcases bs with _ | ⟨b, bs⟩
    · exact hy.elim
    · rcases n with _ | n
      · exact h.elim
      · rw [List.length_cons, ih b (h b) hy]

/-- The program sends nothing. -/
def Listens : Prog α → Prop
  | .ret _ => True
  | .put _ _ => False
  | .get k => ∀ b, Listens (k b)

theorem Listens.bind {p : Prog α} {f : α → Prog β} (h : Listens p) (h' : ∀ a, Listens (f a)) :
    Listens (p >>= f) := by
  induction p with
  | ret a => exact h' a
  | put c q => exact h.elim
  | get q ih =>
    intro b
    exact ih b (h b)

theorem Receives.listens {p : Prog α} {n : ℕ} (h : Receives p n) : Listens p := by
  induction p generalizing n with
  | ret a => trivial
  | put c q => cases n <;> exact h.elim
  | get q ih =>
    rcases n with _ | n
    · exact h.elim
    · intro b
      exact ih b (h b)

/-- What it has received determines what it returns. -/
theorem Listens.run_some {p : Prog α} (h : Listens p) {d : List UInt8} {e : Exchange α}
    (he : run p d = some e) : ∃ bs, d = bs ++ e.rest ∧ Yields p bs e.result ∧ e.sent = [] := by
  induction p generalizing d with
  | ret a =>
    cases he
    exact ⟨[], rfl, rfl, rfl⟩
  | put c q => exact h.elim
  | get q ih =>
    rcases d with _ | ⟨b, d⟩
    · cases he
    · obtain ⟨bs, rfl, hy, hs⟩ := ih b (h b) he
      exact ⟨b :: bs, rfl, hy, hs⟩

/-- The bytes of a sequence are those of its parts. -/
theorem Yields.of_bind {p : Prog α} {f : α → Prog β} {bs : List UInt8} {b : β}
    (h : Yields (p >>= f) bs b) :
    ∃ cs ds a, bs = cs ++ ds ∧ Yields p cs a ∧ Yields (f a) ds b := by
  induction p generalizing bs with
  | ret a => exact ⟨[], bs, a, rfl, rfl, h⟩
  | put c q => cases bs <;> exact h.elim
  | get q ih =>
    rcases bs with _ | ⟨c, bs⟩
    · exact h.elim
    · obtain ⟨cs, ds, a, rfl, hp, hf⟩ := ih c h
      exact ⟨c :: cs, ds, a, rfl, hp, hf⟩

/-! ## What a program sends -/

/-- What a program sends until it returns or waits for more bytes. -/
def output : Prog α → List UInt8 → List UInt8
  | .ret _, _ => []
  | .put b k, d => b :: output k d
  | .get _, [] => []
  | .get k, b :: d => output (k b) d

theorem output_of_run {p : Prog α} {d : List UInt8} {e : Exchange α} (h : run p d = some e) :
    output p d = e.sent := by
  induction p generalizing d e with
  | ret a =>
    cases h
    rfl
  | put b k ih =>
    obtain ⟨e', he', rfl⟩ := Option.map_eq_some_iff.1 h
    rw [output, ih he']
    rfl
  | get k ih =>
    rcases d with _ | ⟨b, d⟩
    · cases h
    · exact ih b h

theorem output_bind (p : Prog α) (f : α → Prog β) (d : List UInt8) :
    output (p >>= f) d = output p d ++ (run p d).elim [] fun e => output (f e.result) e.rest := by
  induction p generalizing d with
  | ret a => rfl
  | put b k ih =>
    rw [Prog.put_bind, output, ih, output, run_put]
    rcases run k d with _ | e <;> rfl
  | get k ih =>
    rcases d with _ | ⟨b, d⟩
    · rfl
    · exact ih b d

theorem Listens.output {p : Prog α} (h : Listens p) (d : List UInt8) : Duplex.output p d = [] := by
  induction p generalizing d with
  | ret a => rfl
  | put b k => exact h.elim
  | get k ih =>
    rcases d with _ | ⟨b, d⟩
    · rfl
    · exact ih b (h b) d

/-! ## Against a server that has ended -/

variable {ε σ : Type} {srv : Server ε σ} {e : ε}

/-- Nothing is read of what a program sends, and nothing comes in reply. -/
theorem settle_ended (srv : Server ε σ) (p : Prog α) (u d : List UInt8) :
    (settle srv p u d (.error e)).toServer = u ++ output p d ∧
      (∀ x, run p d = some x → (settle srv p u d (.error e)).prog = .ret x.result ∧
        (settle srv p u d (.error e)).toProg = x.rest) ∧
      (run p d = none → (∃ k, (settle srv p u d (.error e)).prog = .get k) ∧
        (settle srv p u d (.error e)).toProg = []) := by
  induction p generalizing u d with
  | ret a => simp [settle, output]
  | put b k ih =>
    obtain ⟨hsent, hret, hwait⟩ := ih (u ++ [b]) d
    rw [settle, output, run_put]
    refine ⟨by rw [hsent, List.append_assoc]; rfl, ?_, ?_⟩
    · intro x hx
      obtain ⟨x', hx', rfl⟩ := Option.map_eq_some_iff.1 hx
      exact hret x' hx'
    · intro hnone
      exact hwait (Option.map_eq_none_iff.1 hnone)
  | get k ih =>
    rcases d with _ | ⟨b, d⟩
    · simp [settle, output, run]
    · exact ih b u d

/-- What has been sent stays sent. -/
theorem Steps.sent_prefix {n : ℕ} {a b : Sys ε σ α} (h : Steps (Step srv) n a b)
    (ha : a.server = .error e) : a.toServer <+: b.toServer ∧ b.server = .error e := by
  induction h with
  | refl a => exact ⟨List.prefix_rfl, ha⟩
  | head hs _ ih =>
    cases hs with
    | put c k u d s =>
      obtain ⟨hgrow, hb⟩ := ih ha
      exact ⟨(List.prefix_append u [c]).trans hgrow, hb⟩
    | get => exact ih ha
    | serve => cases ha

end Duplex
