/-
  Values that calls set.

  If each call either sets a value or leaves it alone, then after any calls it
  is what the last one that sets it has set.
-/
import Mathlib.Tactic

namespace Setting

variable {σ κ τ : Type*} {f : σ → κ → σ} {v : σ → τ} {sets : κ → Option τ}

/-- The value set last, `t` if there is none. -/
def last (sets : κ → Option τ) (ks : List κ) (t : τ) : τ := ((ks.filterMap sets).getLast?).getD t

@[simp] theorem last_nil (t : τ) : last sets [] t = t := rfl

theorem last_concat (ks : List κ) (k : κ) (t : τ) :
    last sets (ks ++ [k]) t = (sets k).getD (last sets ks t) := by
  unfold last
  rw [List.filterMap_append]
  cases hk : sets k with
  | none => simp [hk]
  | some b => simp [hk]

section
variable {I : σ → Prop} (hinv : ∀ s k, I s → I (f s k))
include hinv

theorem foldl_invariant {s : σ} (hs : I s) (ks : List κ) : I (ks.foldl f s) := by
  induction ks using List.reverseRecOn with
  | nil => exact hs
  | append_singleton ks k ih =>
    rw [List.foldl_concat]
    exact hinv _ k ih

/-- **The last call that sets the value counts**, where the states meet an
    invariant. -/
theorem foldl_last_of (h : ∀ s k, I s → v (f s k) = (sets k).getD (v s)) {s : σ} (hs : I s)
    (ks : List κ) : v (ks.foldl f s) = last sets ks (v s) := by
  induction ks using List.reverseRecOn with
  | nil => rfl
  | append_singleton ks k ih =>
    rw [List.foldl_concat, h _ _ (foldl_invariant hinv hs ks), ih, last_concat]

/-- What no call sets stays. -/
theorem foldl_same_of (h : ∀ s k, I s → v (f s k) = v s) {s : σ} (hs : I s) (ks : List κ) :
    v (ks.foldl f s) = v s := by
  induction ks using List.reverseRecOn with
  | nil => rfl
  | append_singleton ks k ih => rw [List.foldl_concat, h _ _ (foldl_invariant hinv hs ks), ih]

end

/-! From any state. -/

end Setting
