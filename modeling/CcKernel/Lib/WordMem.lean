/-
  A 32-bit word memory with block transfers.

  Addresses are byte addresses and a cell is the word stored at one, so a block
  of `n` words at `a` occupies `a`, `a + 4`, …, as a store-multiple or a
  word-aligned `memcpy` leaves it.  `store` and `load` move blocks,
  `below` changes everything under a stack pointer (what a callee may do to its
  caller's memory).
-/
import Mathlib.Tactic

namespace WordMem

abbrev Word := BitVec 32

abbrev Mem := Word → Word

/-- The addresses of a block of `n` words at `a`. -/
def addrs (a : Word) : ℕ → List Word
  | 0 => []
  | n + 1 => a :: addrs (a + 4) n

/-- Store the words at `a`, `a + 4`, … -/
def store (m : Mem) (a : Word) : List Word → Mem
  | [] => m
  | w :: ws => store (Function.update m a w) (a + 4) ws

/-- Load `n` words from `a`, `a + 4`, … -/
def load (m : Mem) (a : Word) (n : ℕ) : List Word := (addrs a n).map m

/-- `m` with arbitrary contents `m'` at the addresses below `sp`. -/
def below (m : Mem) (sp : Word) (m' : Mem) : Mem :=
  fun x => if x < sp then m' x else m x

theorem mem_addrs {x a : Word} {n : ℕ} :
    x ∈ addrs a n ↔ ∃ k < n, x = a + BitVec.ofNat 32 (4 * k) := by
  induction n generalizing a with
  | zero => simp [addrs]
  | succ n ih =>
    simp only [addrs, List.mem_cons, ih]
    constructor
    · rintro (rfl | ⟨k, hk, rfl⟩)
      · exact ⟨0, by omega, by simp⟩
      · exact ⟨k + 1, by omega, by bv_omega⟩
    · rintro ⟨_ | k, hk, rfl⟩
      · exact Or.inl (by simp)
      · exact Or.inr ⟨k, by omega, by bv_omega⟩

theorem addrs_length (a : Word) (n : ℕ) : (addrs a n).length = n := by
  induction n generalizing a with
  | zero => rfl
  | succ n ih => simp only [addrs, List.length_cons, ih]

/-- A block shorter than the address space does not meet itself. -/
theorem head_notMem_addrs {a : Word} {n : ℕ} (h : 4 * n + 4 ≤ 2 ^ 32) : a ∉ addrs (a + 4) n := by
  rw [mem_addrs]
  rintro ⟨k, hk, he⟩
  bv_omega

theorem store_of_notMem {m : Mem} {a x : Word} {ws : List Word} (h : x ∉ addrs a ws.length) :
    store m a ws x = m x := by
  induction ws generalizing m a with
  | nil => rfl
  | cons w ws ih =>
    simp only [List.length_cons, addrs, List.mem_cons, not_or] at h
    rw [store, ih h.2, Function.update_of_ne h.1]

theorem load_store {m : Mem} {a : Word} {ws : List Word} (h : 4 * ws.length ≤ 2 ^ 32) :
    load (store m a ws) a ws.length = ws := by
  induction ws generalizing m a with
  | nil => rfl
  | cons w ws ih =>
    simp only [List.length_cons] at h
    simp only [load, List.length_cons, addrs, List.map_cons, store, List.cons.injEq]
    refine ⟨?_, ih (by omega)⟩
    rw [store_of_notMem (head_notMem_addrs (by omega)), Function.update_self]

theorem load_append (m : Mem) (a : Word) (n k : ℕ) :
    load m a (n + k) = load m a n ++ load m (a + BitVec.ofNat 32 (4 * n)) k := by
  induction n generalizing a with
  | zero => simp [load, addrs]
  | succ n ih =>
    rw [show n + 1 + k = (n + k) + 1 by omega]
    simp only [load, addrs, List.map_cons, List.cons_append, List.cons.injEq, true_and] at ih ⊢
    rw [ih, show a + 4 + BitVec.ofNat 32 (4 * n) = a + BitVec.ofNat 32 (4 * (n + 1)) by bv_omega]

/-- A cell outside a block may be written before or after it. -/
theorem store_update {m : Mem} {a x u : Word} {ws : List Word} (h : x ∉ addrs a ws.length) :
    store (Function.update m x u) a ws = Function.update (store m a ws) x u := by
  induction ws generalizing m a with
  | nil => rfl
  | cons w ws ih =>
    simp only [List.length_cons, addrs, List.mem_cons, not_or] at h
    simp only [store]
    rw [Function.update_comm h.1, ih h.2]

/-- Two adjacent stores, the upper one first, are one. -/
theorem store_store_append {m : Mem} {a : Word} {us ws : List Word}
    (h : 4 * (us.length + ws.length) ≤ 2 ^ 32) :
    store (store m (a + BitVec.ofNat 32 (4 * us.length)) ws) a us = store m a (us ++ ws) := by
  induction us generalizing m a with
  | nil => simp [store]
  | cons u us ih =>
    simp only [List.length_cons] at h
    simp only [store, List.cons_append, List.length_cons]
    have hoff : a + BitVec.ofNat 32 (4 * (us.length + 1)) =
        a + 4 + BitVec.ofNat 32 (4 * us.length) := by bv_omega
    -- the head cell lies below the block stored first
    have hne : a ∉ addrs (a + 4 + BitVec.ofNat 32 (4 * us.length)) ws.length := by
      rw [mem_addrs]
      rintro ⟨k, hk, he⟩
      bv_omega
    rw [hoff, ← store_update hne, ih (by omega)]

/-- The last word of a block. -/
theorem store_concat (m : Mem) (a : Word) (ws : List Word) (w : Word) :
    store m a (ws ++ [w]) =
      Function.update (store m a ws) (a + BitVec.ofNat 32 (4 * ws.length)) w := by
  induction ws generalizing m a with
  | nil => simp [store]
  | cons u ws ih =>
    rw [List.cons_append, store, ih, store, List.length_cons,
      show a + 4 + BitVec.ofNat 32 (4 * ws.length) = a + BitVec.ofNat 32 (4 * (ws.length + 1)) by
        bv_omega]

theorem getElem?_load (m : Mem) (a : Word) (n k : ℕ) :
    (load m a n)[k]? = if k < n then some (m (a + BitVec.ofNat 32 (4 * k))) else none := by
  induction n generalizing a k with
  | zero => simp [load, addrs]
  | succ n ih =>
    cases k with
    | zero => simp [load, addrs]
    | succ k =>
      show (load m (a + 4) n)[k]? = _
      rw [ih, show a + 4 + BitVec.ofNat 32 (4 * k) = a + BitVec.ofNat 32 (4 * (k + 1)) by bv_omega]
      simp

theorem load_congr {m m' : Mem} {a : Word} {n : ℕ} (h : ∀ x ∈ addrs a n, m x = m' x) :
    load m a n = load m' a n := List.map_congr_left h

/-- What lies at or above the stack pointer survives. -/
theorem below_of_le {m m' : Mem} {sp x : Word} (h : sp ≤ x) : below m sp m' x = m x := by
  unfold below
  rw [if_neg (by bv_omega)]

theorem load_below {m m' : Mem} {sp a : Word} {n : ℕ} (h : sp ≤ a) (hn : a.toNat + 4 * n ≤ 2 ^ 32) :
    load (below m sp m') a n = load m a n := by
  refine load_congr fun x hx => below_of_le ?_
  obtain ⟨k, hk, rfl⟩ := mem_addrs.1 hx
  bv_omega

end WordMem
