/-
  Driver and server as an array of blocks.

  The purpose of the disk is a `Store`: a block for every address, of which each
  call reads or replaces one.  Every interleaving of the driver with the server
  returns what the store answers, and leaves an image that holds the store.
-/
import Mathlib.Logic.Function.Basic
import CcKernel.Device.DiskCalls

namespace CcKernel

open Duplex PyStr Blocks

/-! ## The store -/

/-- A valid address. -/
abbrev Addr (g : Geometry) : Type := {a : UInt32 // a.toNat < g.blockNum}

/-- The contents of a block. -/
abbrev Block (g : Geometry) : Type := {x : List UInt8 // x.length = g.blockLen}

abbrev Store (g : Geometry) : Type := Addr g → Block g

/-- A call of the driver; that of `disk_rd` with the buffer it is given. -/
inductive DiskCall (g : Geometry) where
  | getBlockNum
  | getBlockLen
  | wr (a : Addr g) (x : Block g)
  | rd (a : Addr g) (x : Block g)

/-- What a call returns, and for `disk_rd` the buffer. -/
inductive DiskResult where
  | int (r : ℤ)
  | data (r : ℤ) (x : List UInt8)
  deriving DecidableEq

section
variable {g : Geometry}

namespace Store

/-- The store after a call. -/
def next (s : Store g) : DiskCall g → Store g
  | .wr a x => Function.update s a x
  | _ => s

/-- What a call returns. -/
def answer (s : Store g) : DiskCall g → DiskResult
  | .getBlockNum => .int g.blockNum
  | .getBlockLen => .int g.blockLen
  | .wr _ _ => .int diskSuccess
  | .rd a _ => .data diskSuccess (s a)

def after (s : Store g) (cs : List (DiskCall g)) : Store g := cs.foldl next s

def answers (s : Store g) : List (DiskCall g) → List DiskResult
  | [] => []
  | c :: cs => s.answer c :: (s.next c).answers cs

theorem length_answers (s : Store g) (cs : List (DiskCall g)) :
    (s.answers cs).length = cs.length := by
  induction cs generalizing s with
  | nil => rfl
  | cons c cs ih => rw [answers, List.length_cons, ih, List.length_cons]

/-- Each call is answered by the store after the calls before it. -/
theorem answers_append_cons (s : Store g) (past : List (DiskCall g)) (c : DiskCall g)
    (cs : List (DiskCall g)) :
    s.answers (past ++ c :: cs) =
      s.answers past ++ (s.after past).answer c :: ((s.after past).next c).answers cs := by
  induction past generalizing s with
  | nil => rfl
  | cons b past ih =>
    rw [List.cons_append, answers, ih, answers, List.cons_append]
    rfl

end Store

/-- The data of the latest write to `a`. -/
def latest (a : Addr g) : List (DiskCall g) → Option (Block g)
  | [] => none
  | .wr b x :: cs => (latest a cs).or (if a = b then some x else none)
  | _ :: cs => latest a cs

/-- A block of the store is what was last written to it. -/
theorem Store.after_apply (s : Store g) (cs : List (DiskCall g)) (a : Addr g) :
    s.after cs a = (latest a cs).getD (s a) := by
  induction cs generalizing s with
  | nil => rfl
  | cons c cs ih =>
    have hcs : s.after (c :: cs) = (s.next c).after cs := rfl
    rw [hcs, ih]
    cases c with
    | wr b x =>
      rw [latest, next, Function.update_apply]
      cases latest a cs with
      | some y => rfl
      | none =>
        simp only [Option.getD_none, Option.none_or]
        split
        · rfl
        · rfl
    | getBlockNum => rfl
    | getBlockLen => rfl
    | rd b x => rfl

/-! ## The driver's calls -/

namespace DiskCall

/-- The call, as the driver's function. -/
def run : DiskCall g → Prog DiskResult
  | .getBlockNum => do return .int (← diskGetBlockNum)
  | .getBlockLen => do return .int (← diskGetBlockLen)
  | .wr a x => do return .int (← diskWr a x g.blockLen)
  | .rd a x => do
    let (r, x) ← diskRd a x g.blockLen
    return .data r x

end DiskCall

/-- Calls one after the other. -/
def session : List (DiskCall g) → Prog (List DiskResult)
  | [] => return []
  | c :: cs => do
    let r ← c.run
    let rs ← session cs
    return r :: rs

/-! ## The image -/

/-- An image of the right length. -/
structure DiskImage (g : Geometry) where
  file : File
  length_eq : file.length = g.blockNum * g.blockLen

namespace DiskImage

theorem block_le (im : DiskImage g) (a : Addr g) :
    a.1.toNat * g.blockLen + g.blockLen ≤ im.file.length := by
  rw [im.length_eq, ← Nat.succ_mul]
  exact Nat.mul_le_mul_right _ a.2

/-- The store that the image holds. -/
def store (im : DiskImage g) : Store g := fun a =>
  ⟨block g.blockLen im.file a.1.toNat, length_readAt (im.block_le a)⟩

/-- The image after a write. -/
def write (im : DiskImage g) (a : Addr g) (x : Block g) : DiskImage g :=
  ⟨writeAt im.file (a.1.toNat * g.blockLen) x, by
    rw [length_writeAt (by rw [x.2]; exact im.block_le a), im.length_eq]⟩

/-- A write to the image is a write to the store. -/
theorem store_write (im : DiskImage g) (a : Addr g) (x : Block g) :
    (im.write a x).store = Function.update im.store a x := by
  funext b
  apply Subtype.ext
  show block g.blockLen (writeAt im.file (a.1.toNat * g.blockLen) x) b.1.toNat = _
  rw [Function.update_apply]
  split
  · rename_i hb
    subst hb
    rw [block_writeAt_self x.2.le (Nat.le_of_add_right_le (im.block_le b)), x.2,
      List.drop_eq_nil_of_le, List.append_nil]
    exact (length_readAt (im.block_le b)).le
  · rename_i hb
    have hne : b.1.toNat ≠ a.1.toNat := fun h => hb (Subtype.ext (UInt32.toNat_inj.1 h))
    exact block_writeAt_other hne x.2.le (Nat.le_of_add_right_le (im.block_le a))

/-- The image after a call. -/
def next (im : DiskImage g) : DiskCall g → DiskImage g
  | .wr a x => im.write a x
  | _ => im

theorem store_next (im : DiskImage g) (c : DiskCall g) : (im.next c).store = im.store.next c := by
  cases c with
  | wr a x => exact im.store_write a x
  | getBlockNum => rfl
  | getBlockLen => rfl
  | rd a x => rfl

def after (im : DiskImage g) (cs : List (DiskCall g)) : DiskImage g := cs.foldl next im

theorem store_after (im : DiskImage g) (cs : List (DiskCall g)) :
    (im.after cs).store = im.store.after cs := by
  induction cs generalizing im with
  | nil => rfl
  | cons c cs ih =>
    show ((im.next c).after cs).store = (im.store.next c).after cs
    rw [ih, store_next]

end DiskImage

/-! ## The refinement -/

/-- One call. -/
theorem calls_run (im : DiskImage g) (c : DiskCall g) :
    Calls (diskServer g) c.run ⟨im.file, []⟩ (im.store.answer c) ⟨(im.next c).file, []⟩ := by
  cases c with
  | getBlockNum => exact (calls_diskGetBlockNum g _).bind (Calls.ret _ _)
  | getBlockLen => exact (calls_diskGetBlockLen g _).bind (Calls.ret _ _)
  | wr a x => exact (calls_diskWr a.2 x.2 rfl).bind (Calls.ret _ _)
  | rd a x =>
    have hb : (block g.blockLen im.file a.1.toNat).length = g.blockLen :=
      length_readAt (im.block_le a)
    have h := calls_diskRd (d := ⟨im.file, []⟩) a.2 x.2 hb
    exact h.bind (Calls.ret _ _)

theorem calls_session (im : DiskImage g) (cs : List (DiskCall g)) :
    Calls (diskServer g) (session cs) ⟨im.file, []⟩ (im.store.answers cs)
      ⟨(im.after cs).file, []⟩ := by
  induction cs generalizing im with
  | nil => exact Calls.ret _ _
  | cons c cs ih =>
    have h := ih (im.next c)
    rw [im.store_next c] at h
    exact (calls_run im c).bind (h.bind (Calls.ret _ _))

theorem talks_diskServer (g : Geometry) : Talks (diskServer g) := by
  intro d line reply d' h
  unfold diskServer at h
  rcases hack : acknowledge g (split (strip (line ++ [eol]))) d with e | ⟨ack, d''⟩
  · rw [loopBody_error hack] at h
    cases h
  · rw [loopBody_ok hack] at h
    cases h
    exact List.append_ne_nil_of_right_ne_nil _ (List.cons_ne_nil _ _)

/-- **Driver and server are an array of blocks.**  In every interleaving a
    sequence of calls returns what the store answers, `disk_rd` the latest data
    written; the image holds the store, and what follows the calls starts with
    nothing on its way in either direction. -/
theorem disk_refines_store (g : Geometry) (im : DiskImage g) (cs : List (DiskCall g)) :
    ∃ im' : DiskImage g,
      Settles (Step (diskServer g)) ⟨session cs, [], [], .ok ⟨im.file, []⟩⟩
        ⟨.ret (im.store.answers cs), [], [], .ok ⟨im'.file, []⟩⟩ ∧
      (∀ a, im'.store a = (latest a cs).getD (im.store a)) ∧
      (∀ past a x rest, cs = past ++ .rd a x :: rest → (im.store.answers cs)[past.length]? =
        some (.data diskSuccess ((latest a past).getD (im.store a)))) ∧
      ∀ (β : Type) (f : List DiskResult → Prog β) n t,
        Steps (Step (diskServer g)) n ⟨session cs >>= f, [], [], .ok ⟨im.file, []⟩⟩ t →
        (∃ q u d s, t = ⟨q >>= f, u, d, s⟩ ∧
          Steps (Step (diskServer g)) n ⟨session cs, [], [], .ok ⟨im.file, []⟩⟩ ⟨q, u, d, s⟩) ∨
        ∃ k, k ≤ n ∧ Steps (Step (diskServer g)) (n - k)
          ⟨f (im.store.answers cs), [], [], .ok ⟨im'.file, []⟩⟩ t := by
  have h := calls_session im cs
  refine ⟨im.after cs, calls_iff_settles.1 h, ?_, ?_, ?_⟩
  · intro a
    rw [im.store_after, Store.after_apply]
  · rintro past a x rest rfl
    have hlen := im.store.length_answers past
    rw [Store.answers_append_cons, List.getElem?_append_right hlen.le, hlen, Nat.sub_self,
      List.getElem?_cons_zero, Store.answer, Store.after_apply]
  · intro β f n t hr
    exact h.steps_bind (talks_diskServer g) f hr

end

end CcKernel
