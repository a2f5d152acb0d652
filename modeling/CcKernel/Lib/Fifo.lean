/-
  Bounded queues.

  A queue never holds more than its capacity; what is pushed onto a full queue
  is lost.  `Carries f ins outs` says that nothing has been lost: what came out,
  followed by what is still inside, is what went in.
-/
import Mathlib.Tactic

variable {β : Type*} {c : ℕ}

/-- A queue of at most `c` items, the oldest first. -/
@[ext] structure Fifo (β : Type*) (c : ℕ) where
  items : List β
  le_cap : items.length ≤ c

namespace Fifo

def empty : Fifo β c := ⟨[], Nat.zero_le c⟩

def Full (f : Fifo β c) : Prop := f.items.length = c

def Empty (f : Fifo β c) : Prop := f.items = []

instance (f : Fifo β c) : Decidable f.Full := inferInstanceAs (Decidable (_ = _))

instance (f : Fifo β c) : Decidable f.Empty := decidable_of_iff _ List.isEmpty_iff

/-- On a full queue the item is lost. -/
def push (f : Fifo β c) (b : β) : Fifo β c :=
  if h : f.Full then f
  else ⟨f.items ++ [b], by rw [List.length_append]; exact Nat.lt_of_le_of_ne f.le_cap h⟩

def pop (f : Fifo β c) : Option (β × Fifo β c) :=
  match f with
  | ⟨[], _⟩ => none
  | ⟨b :: bs, h⟩ => some (b, ⟨bs, Nat.le_of_succ_le h⟩)

theorem items_push {f : Fifo β c} (h : ¬ f.Full) (b : β) : (f.push b).items = f.items ++ [b] := by
  rw [push, dif_neg h]

theorem pop_eq_none {f : Fifo β c} : f.pop = none ↔ f.Empty := by
  rcases f with ⟨_ | ⟨b, bs⟩, h⟩ <;> simp [pop, Empty]

theorem pop_eq_some {f g : Fifo β c} {b : β} : f.pop = some (b, g) ↔ f.items = b :: g.items := by
  rcases f with ⟨_ | ⟨b', bs⟩, h⟩ <;> simp [pop, Fifo.ext_iff]

theorem exists_pop {f : Fifo β c} (h : ¬ f.Empty) : ∃ b g, f.pop = some (b, g) := by
  obtain ⟨⟨b, g⟩, hp⟩ := Option.ne_none_iff_exists'.1 (mt pop_eq_none.1 h)
  exact ⟨b, g, hp⟩

/-- A queue with room for an item is not full when it is empty. -/
theorem not_full_of_empty (hc : 1 ≤ c) {f : Fifo β c} (h : f.Empty) : ¬ f.Full := by
  intro hf
  have hlen : f.items.length = 0 := by rw [h]; rfl
  exact absurd (hf.symm.trans hlen) (by omega)

/-- After an item has come out there is room for one. -/
theorem not_full_of_pop {f g : Fifo β c} {b : β} (h : f.pop = some (b, g)) : ¬ g.Full := by
  intro hg
  have hlen := f.le_cap
  rw [pop_eq_some.1 h, List.length_cons] at hlen
  exact absurd hg (by unfold Full; omega)

theorem not_empty_push {f : Fifo β c} (h : ¬ f.Full) (b : β) : ¬ (f.push b).Empty := by
  unfold Empty
  rw [items_push h]
  simp

/-! ## Nothing is lost -/

/-- `ins` went in and `outs` came out. -/
def Carries (f : Fifo β c) (ins outs : List β) : Prop := outs ++ f.items = ins

theorem Carries.empty : (empty : Fifo β c).Carries [] [] := rfl

variable {f g : Fifo β c} {ins outs : List β} {b : β}

theorem Carries.push (h : f.Carries ins outs) (hf : ¬ f.Full) (b : β) :
    (f.push b).Carries (ins ++ [b]) outs := by
  unfold Carries at *
  rw [items_push hf, ← h, List.append_assoc]

theorem Carries.pop (h : f.Carries ins outs) (hp : f.pop = some (b, g)) :
    g.Carries ins (outs ++ [b]) := by
  unfold Carries at *
  rw [← h, pop_eq_some.1 hp, List.append_assoc, List.singleton_append]

end Fifo
