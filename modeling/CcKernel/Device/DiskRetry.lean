/-
  The retry loop of the disk driver, against any sequence of well-framed replies.

  Requests and replies stay paired: an attempt sends one line and takes exactly
  one reply, be it a failure or the data.
-/
import CcKernel.Device.Disk
import CcKernel.Lib.Exchange

namespace CcKernel

open Duplex PyStr

variable {α δ : Type}

/-! ## Attempts -/

/-- `k` times the same line. -/
def copies (k : ℕ) (line : List UInt8) : List UInt8 := (List.replicate k line).flatten

/-- One round of a retry loop that sends `line`. -/
def attempt (line : List UInt8) (receive : Prog α) : Prog (Option α) :=
  puts line >>= fun _ => reply receive

section
variable {receive : Prog α} {fail : α} {line bs d : List UInt8}

theorem run_retry_zero (d : List UInt8) :
    run (retry fail (attempt line receive) 0) d = some ⟨fail, [], d⟩ := rfl

/-- An attempt that fails costs a line and its reply, -/
theorem run_retry_none (h : Yields (reply receive) bs none) (k : ℕ) (d : List UInt8) :
    run (retry fail (attempt line receive) (k + 1)) (bs ++ d) =
      (run (retry fail (attempt line receive) k) d).map (Exchange.after line) := by
  rw [retry, attempt, bind_assoc, run_puts_bind, run_bind_of (h.run d)]
  exact congrArg _ Option.map_id'

/-- and one that succeeds is the last. -/
theorem run_retry_some {a : α} (h : Yields (reply receive) bs (some a)) (k : ℕ) (d : List UInt8) :
    run (retry fail (attempt line receive) (k + 1)) (bs ++ d) = some ⟨a, line, d⟩ := by
  rw [retry, attempt, bind_assoc, run_puts_bind, run_bind_of (h.run d)]
  simp [Exchange.after, run_ret, show (pure a : Prog α) = .ret a from rfl]

theorem run_retry_fails {fs : List (List UInt8)} (h : ∀ f ∈ fs, Yields (reply receive) f none)
    (k : ℕ) (d : List UInt8) :
    run (retry fail (attempt line receive) (fs.length + k)) (fs.flatten ++ d) =
      (run (retry fail (attempt line receive) k) d).map
        (Exchange.after (copies fs.length line)) := by
  induction fs with
  | nil =>
    rw [List.length_nil, Nat.zero_add]
    exact Option.map_id'.symm
  | cons f fs ih =>
    have hf := h f (List.mem_cons_self ..)
    have hfs : ∀ f ∈ fs, Yields (reply receive) f none :=
      fun f hf => h f (List.mem_cons_of_mem _ hf)
    rw [List.length_cons, show fs.length + 1 + k = fs.length + k + 1 by omega, List.flatten_cons,
      List.append_assoc, run_retry_none hf, ih hfs, map_after]
    rfl

end

/-! ## Well-framed replies -/

/-- `n` bytes of data as pairs of hexadecimal digits, in either case. -/
structure HexData (n : ℕ) where
  digits : List UInt8
  data : List UInt8
  decodes : unhexlify digits = .ok data
  length_data : data.length = n

/-- A status other than 00. -/
structure FailStatus where
  hi : UInt8
  lo : UInt8
  hex : Hex 1 [hi, lo]
  ne : ¬ (hi = chr '0' ∧ lo = chr '0')

/-- A reply to an operation that gets a value of `δ` if it succeeds. -/
inductive Reply (δ : Type) where
  | fail (s : FailStatus)
  | ok (x : δ)

/-- The reply as it arrives; `body` is what follows 00. -/
def Reply.bytes (body : δ → List UInt8) : Reply δ → List UInt8
  | .fail s => [s.hi, s.lo, eol]
  | .ok x => chr '0' :: chr '0' :: body x

/-- The reply `k` is the first that starts with 00. -/
def FirstOk (rs : List (Reply δ)) (k : ℕ) (x : δ) : Prop :=
  rs[k]? = some (.ok x) ∧ ∀ j < k, ∃ s, rs[j]? = some (.fail s)

/-- None of the first `k` replies starts with 00. -/
def AllFail (rs : List (Reply δ)) (k : ℕ) : Prop := ∀ j < k, ∃ s, rs[j]? = some (.fail s)

/-- Call `p` with the replies arriving: each attempt sends `line` and takes one of
    them, and the first 00 among the first three decides.  Whatever comes after
    the replies that are taken stays unread. -/
structure RetryProtocol (p : Prog α) (line : List UInt8) (fail : α) (body : δ → List UInt8)
    (value : δ → α) (rs : List (Reply δ)) : Prop where
  success : ∀ k x rest, k < diskRetry → FirstOk rs k x →
    run p (rs.flatMap (Reply.bytes body) ++ rest) =
      some ⟨value x, copies (k + 1) line, (rs.drop (k + 1)).flatMap (Reply.bytes body) ++ rest⟩
  failure : ∀ rest, AllFail rs diskRetry →
    run p (rs.flatMap (Reply.bytes body) ++ rest) =
      some ⟨fail, copies diskRetry line, (rs.drop diskRetry).flatMap (Reply.bytes body) ++ rest⟩

/-- The failures in front. -/
theorem AllFail.split {rs : List (Reply δ)} {k : ℕ} (h : AllFail rs k) :
    ∃ ss : List FailStatus, ss.length = k ∧ rs = ss.map .fail ++ rs.drop k := by
  induction k generalizing rs with
  | zero => exact ⟨[], rfl, rfl⟩
  | succ k ih =>
    obtain ⟨s, hs⟩ := h 0 (Nat.zero_lt_succ k)
    rcases rs with _ | ⟨r, rs⟩
    · cases hs
    · obtain rfl : r = .fail s := by simpa using hs
      have htail : AllFail rs k := fun j hj => h (j + 1) (Nat.succ_lt_succ hj)
      obtain ⟨ss, rfl, hrs⟩ := ih htail
      refine ⟨s :: ss, rfl, ?_⟩
      rw [List.map_cons, List.cons_append, List.drop_succ_cons, ← hrs]

theorem FirstOk.drop {rs : List (Reply δ)} {k : ℕ} {x : δ} (h : FirstOk rs k x) :
    rs.drop k = .ok x :: rs.drop (k + 1) := by
  obtain ⟨hk, hget⟩ := List.getElem?_eq_some_iff.1 h.1
  rw [List.drop_eq_getElem_cons hk, hget]

theorem yields_fail (receive : Prog α) (body : δ → List UInt8) (s : FailStatus) :
    Yields (reply receive) ((Reply.fail s).bytes body) none :=
  yields_reply_none receive s.ne eol

section
variable {receive : Prog α} {line : List UInt8} {fail : α} {body : δ → List UInt8} {value : δ → α}

/-- Failures in front of anything. -/
theorem run_retry_statuses (ss : List FailStatus) (k : ℕ) (d : List UInt8) :
    run (retry fail (attempt line receive) (ss.length + k))
        ((ss.map Reply.fail).flatMap (Reply.bytes body) ++ d) =
      (run (retry fail (attempt line receive) k) d).map
        (Exchange.after (copies ss.length line)) := by
  have hfs : ∀ f ∈ ss.map fun s => (Reply.fail s : Reply δ).bytes body,
      Yields (reply receive) f none := by
    intro f hf
    obtain ⟨s, -, rfl⟩ := List.mem_map.1 hf
    exact yields_fail receive body s
  have hflat : (ss.map Reply.fail).flatMap (Reply.bytes body) =
      (ss.map fun s => (Reply.fail s : Reply δ).bytes body).flatten := by
    rw [List.flatMap, List.map_map]
    rfl
  have hlen : (ss.map fun s => (Reply.fail s : Reply δ).bytes body).length = ss.length :=
    List.length_map _
  rw [hflat, ← hlen]
  exact run_retry_fails hfs k d

/-- **The retry loop keeps to the protocol** if what follows 00 is received as a
    whole. -/
theorem retryProtocol (h : ∀ x, Yields receive (body x) (value x)) (rs : List (Reply δ)) :
    RetryProtocol (retry fail (attempt line receive) diskRetry) line fail body value rs := by
  constructor
  · intro k x rest hk hfirst
    obtain ⟨ss, rfl, hrs⟩ := AllFail.split hfirst.2
    obtain ⟨j, hj⟩ : ∃ j, diskRetry = ss.length + (j + 1) := ⟨diskRetry - ss.length - 1, by omega⟩
    have hlast : run (retry fail (attempt line receive) (j + 1))
        ((Reply.ok x).bytes body ++
          ((rs.drop (ss.length + 1)).flatMap (Reply.bytes body) ++ rest)) =
        some ⟨value x, line, _⟩ := run_retry_some (yields_reply_ok (h x)) j _
    conv_lhs => rw [hj, hrs, hfirst.drop]
    rw [List.flatMap_append, List.flatMap_cons, List.append_assoc, List.append_assoc,
      run_retry_statuses, hlast]
    simp [Exchange.after, copies, List.replicate_succ']
  · intro rest hfail
    obtain ⟨ss, hlen, hrs⟩ := hfail.split
    conv_lhs => rw [show diskRetry = ss.length + 0 from hlen.symm, hrs]
    rw [List.flatMap_append, List.append_assoc, run_retry_statuses, run_retry_zero]
    simp [Exchange.after, hlen]

end

/-! ## What is received after 00 -/

variable {n : ℕ}

/-- What the queries do with a reply. -/
def getReceive (i : ℕ) : Prog ℤ := do
  let _ ← pl011Getc
  let x ← dataGeth (List.replicate 8 0) 8
  let _ ← pl011Getc
  return intAt x i

theorem receives_rdReceive (x : List UInt8) (n : ℕ) : Receives (rdReceive x n) (1 + (2 * n + 1)) :=
  receives_framed _ x n

theorem receives_getReceive (i : ℕ) : Receives (getReceive i) (1 + (2 * 8 + 1)) :=
  receives_framed _ _ 8

/-- Pairs of characters are stored, be they digits or not. -/
theorem yields_rdReceive {x : List UInt8} (h : n ≤ x.length) (c c' : UInt8) {s : List UInt8}
    (hs : s.length = 2 * n) :
    Yields (rdReceive x n) (c :: (s ++ [c'])) (diskSuccess, hexPairs s ++ x.drop n) :=
  yields_framed (fun y => (diskSuccess, y)) h c c' hs

theorem yields_getReceive (i : ℕ) (c c' : UInt8) {s : List UInt8} (hs : s.length = 2 * 8) :
    Yields (getReceive i) (c :: (s ++ [c'])) (intAt (hexPairs s) i) := by
  have hy := yields_framed (fun y => intAt y i) (x := List.replicate 8 0) (by decide) c c' hs
  rwa [List.drop_eq_nil_of_le (by decide), List.append_nil] at hy

theorem HexData.length_digits (x : HexData n) : x.digits.length = 2 * n :=
  (hex_iff.2 ⟨x.data, x.decodes, x.length_data⟩).1

/-- The rest of a reply with data. -/
def HexData.body (x : HexData n) : List UInt8 := space :: (x.digits ++ [eol])

/-- The number at `i`, lowest byte first. -/
def word (x : List UInt8) (i : ℕ) : ℕ :=
  (x.getD i 0).toNat + 256 * (x.getD (i + 1) 0).toNat + 65536 * (x.getD (i + 2) 0).toNat +
    16777216 * (x.getD (i + 3) 0).toNat

theorem word_lt (x : List UInt8) (i : ℕ) : word x i < 2 ^ 32 := by
  have h0 := (x.getD i 0).toNat_lt
  have h1 := (x.getD (i + 1) 0).toNat_lt
  have h2 := (x.getD (i + 2) 0).toNat_lt
  have h3 := (x.getD (i + 3) 0).toNat_lt
  unfold word
  omega

/-- An `int` has no room for the upper half. -/
theorem intAt_eq (x : List UInt8) (i : ℕ) :
    intAt x i = if word x i < 2 ^ 31 then (word x i : ℤ) else word x i - 2 ^ 32 := by
  unfold intAt
  rw [BitVec.toInt_eq_toNat_cond, UInt32.toNat_toBitVec, toNat_word]
  unfold word
  split <;> split <;> omega

theorem intAt_eq_word_iff {x : List UInt8} {i : ℕ} : intAt x i = word x i ↔ word x i < 2 ^ 31 := by
  have hlt := word_lt x i
  rw [intAt_eq]
  split <;> omega

/-- The top bit of the last byte is the sign. -/
theorem intAt_neg_iff {x : List UInt8} {i : ℕ} : intAt x i < 0 ↔ 0x80 ≤ x.getD (i + 3) 0 := by
  have h0 := (x.getD i 0).toNat_lt
  have h1 := (x.getD (i + 1) 0).toNat_lt
  have h2 := (x.getD (i + 2) 0).toNat_lt
  have h3 : 0x80 ≤ x.getD (i + 3) 0 ↔ 128 ≤ (x.getD (i + 3) 0).toNat := UInt8.le_iff_toNat_le
  have hlt := word_lt x i
  rw [intAt_eq, h3]
  unfold word at *
  split <;> omega

/-! ## The four operations -/

variable {a : UInt32} {x : List UInt8}

/-- A write has nothing to receive but the end of the line. -/
def WrProtocol (a : UInt32) (x : List UInt8) (n : ℕ) (rs : List (Reply Unit)) : Prop :=
  RetryProtocol (diskWr a x n) (wrLine a (x.take n) ++ [eol]) diskFailure (fun _ => [eol])
    (fun _ => diskSuccess) rs

/-- A read stores the data, or leaves `x` as it was. -/
def RdProtocol (a : UInt32) (x : List UInt8) (n : ℕ) (rs : List (Reply (HexData n))) : Prop :=
  RetryProtocol (diskRd a x n) (rdLine a ++ [eol]) (diskFailure, x) HexData.body
    (fun d => (diskSuccess, d.data ++ x.drop n)) rs

/-- A query returns the number at `i` of the data. -/
def GetProtocol (p : Prog ℤ) (i : ℕ) (rs : List (Reply (HexData 8))) : Prop :=
  RetryProtocol p (confLine ++ [eol]) diskFailure HexData.body (fun d => (word d.data i : ℤ)) rs

theorem wrProtocol (h : n ≤ x.length) (rs : List (Reply Unit)) : WrProtocol a x n rs := by
  unfold WrProtocol
  rw [diskWr_take a h]
  have hy : Yields wrReceive [eol] diskSuccess := (yields_getc eol).bind rfl
  exact retryProtocol (fun _ => hy) rs

theorem rdProtocol (h : n ≤ x.length) (rs : List (Reply (HexData n))) : RdProtocol a x n rs := by
  unfold RdProtocol
  rw [diskRd_eq]
  refine retryProtocol ?_ rs
  intro d
  have hy := yields_rdReceive h space eol d.length_digits
  rwa [hexPairs_of_unhexlify d.decodes] at hy

/-- A query returns an `int`. -/
theorem retryProtocol_diskGet (i : ℕ) (rs : List (Reply (HexData 8))) :
    RetryProtocol (diskGet i) (confLine ++ [eol]) diskFailure HexData.body
      (fun d => intAt d.data i) rs := by
  have hy (d : HexData 8) : Yields (getReceive i) d.body (intAt d.data i) := by
    have hd := yields_getReceive i space eol d.length_digits
    rwa [hexPairs_of_unhexlify d.decodes] at hd
  rw [diskGet_eq]
  exact retryProtocol hy rs

theorem getProtocol_iff (i : ℕ) (rs : List (Reply (HexData 8))) :
    GetProtocol (diskGet i) i rs ↔
      ∀ k d, k < diskRetry → FirstOk rs k d → word d.data i < 2 ^ 31 := by
  have hp := retryProtocol_diskGet i rs
  constructor
  · intro h k d hk hd
    have heq := (hp.success k d [] hk hd).symm.trans (h.success k d [] hk hd)
    simp only [Option.some.injEq, Exchange.mk.injEq, and_true] at heq
    exact intAt_eq_word_iff.1 heq
  · intro h
    refine ⟨?_, hp.failure⟩
    intro k d rest hk hd
    rw [hp.success k d rest hk hd, intAt_eq_word_iff.2 (h k d hk hd)]

/-- **Writes and reads keep to the protocol always, a query exactly if the number it
    is to return fits in an `int`.** -/
theorem protocol_iff (a : UInt32) {x : List UInt8} {n : ℕ} (h : n ≤ x.length) :
    (∀ rs, WrProtocol a x n rs) ∧ (∀ rs, RdProtocol a x n rs) ∧
      (∀ rs, GetProtocol diskGetBlockNum 0 rs ↔
        ∀ k d, k < diskRetry → FirstOk rs k d → word d.data 0 < 2 ^ 31) ∧
      ∀ rs, GetProtocol diskGetBlockLen 4 rs ↔
        ∀ k d, k < diskRetry → FirstOk rs k d → word d.data 4 < 2 ^ 31 :=
  ⟨wrProtocol h, rdProtocol h, getProtocol_iff 0, getProtocol_iff 4⟩

theorem protocol_two : (∀ rs, WrProtocol 1 [5, 6] 2 rs) ∧ (∀ rs, RdProtocol 1 [5, 6] 2 rs) ∧
    (∀ rs, GetProtocol diskGetBlockNum 0 rs ↔
      ∀ k d, k < diskRetry → FirstOk rs k d → word d.data 0 < 2 ^ 31) ∧
    ∀ rs, GetProtocol diskGetBlockLen 4 rs ↔
      ∀ k d, k < diskRetry → FirstOk rs k d → word d.data 4 < 2 ^ 31 :=
  protocol_iff 1 (by decide)

/-- Eight bytes of ones. -/
def allOnes : HexData 8 where
  digits := List.replicate 16 (chr 'f')
  data := List.replicate 8 0xFF
  decodes := rfl
  length_data := rfl

/-- The number 2^32 - 1 is `DISK_FAILURE`. -/
theorem not_getProtocol_allOnes : ¬ GetProtocol diskGetBlockNum 0 [.ok allOnes] := by
  intro h
  have hfirst : FirstOk [.ok allOnes] 0 allOnes := ⟨rfl, by simp⟩
  have hrun := h.success 0 allOnes [] (by decide) hfirst
  have hfail : (run diskGetBlockNum
      ([Reply.ok allOnes].flatMap (Reply.bytes HexData.body) ++ [])).map Exchange.result =
      some diskFailure := by decide
  rw [hrun] at hfail
  revert hfail
  decide

end CcKernel
