/-
  The disk driver (`device/disk.c`).

  A request is a line on `UART2`, its reply is read byte by byte; each function
  tries up to `DISK_RETRY` times.
-/
import CcKernel.Device.PL011
import CcKernel.Lib.Exchange

namespace CcKernel

open Duplex PyStr

def diskRetry : ℕ := 3

def diskSuccess : ℤ := 0

def diskFailure : ℤ := -1

def addrPuth (x : UInt32) : Prog Unit := do
  pl011Puth ((x >>> 0) &&& 0xFF).toUInt8
  pl011Puth ((x >>> 8) &&& 0xFF).toUInt8
  pl011Puth ((x >>> 16) &&& 0xFF).toUInt8
  pl011Puth ((x >>> 24) &&& 0xFF).toUInt8

def dataPuth (x : List UInt8) (n : ℕ) : Prog Unit :=
  (List.range n).forM fun i => pl011Puth (x.getD i 0)

/-- `x` is the buffer before and after. -/
def dataGeth (x : List UInt8) (n : ℕ) : Prog (List UInt8) :=
  (List.range n).foldlM (fun x i => do return x.set i (← pl011Geth)) x

/-- The reply to a request: if it starts with 00, what `receive` reads after that. -/
def reply {α : Type} (receive : Prog α) : Prog (Option α) := do
  if (← pl011Geth) = 0x00 then
    return some (← receive)
  else
    let _ ← pl011Getc
    return none

/-- One round of a retry loop. -/
def request {α : Type} (send : Prog Unit) (receive : Prog α) : Prog (Option α) := do
  send
  reply receive

/-- `for( int i = 0; i < k; i++ )` over a round, then `return fail`. -/
def retry {α : Type} (fail : α) (round : Prog (Option α)) : ℕ → Prog α
  | 0 => return fail
  | k + 1 => do
    match ← round with
    | some a => return a
    | none => retry fail round k

/-- The bytes `x[i]`, …, `x[i + 3]` as an `int`. -/
def intAt (x : List UInt8) (i : ℕ) : ℤ :=
  ((x.getD i 0).toUInt32 <<< 0 ||| (x.getD (i + 1) 0).toUInt32 <<< 8 |||
    (x.getD (i + 2) 0).toUInt32 <<< 16 ||| (x.getD (i + 3) 0).toUInt32 <<< 24).toBitVec.toInt

/-- `disk_get_block_num` and `disk_get_block_len`: the number at `i` of the reply
    to a query. -/
def diskGet (i : ℕ) : Prog ℤ :=
  let n := 2 * 4
  retry diskFailure (request
    (do
      pl011Puth 0x00
      pl011Putc eol)
    (do
      let _ ← pl011Getc
      let x ← dataGeth (List.replicate n 0) n
      let _ ← pl011Getc
      return intAt x i)) diskRetry

def diskGetBlockNum : Prog ℤ := diskGet 0

def diskGetBlockLen : Prog ℤ := diskGet 4

def diskWr (a : UInt32) (x : List UInt8) (n : ℕ) : Prog ℤ :=
  retry diskFailure (request
    (do
      pl011Puth 0x01
      pl011Putc (chr ' ')
      addrPuth a
      pl011Putc (chr ' ')
      dataPuth x n
      pl011Putc eol)
    (do
      let _ ← pl011Getc
      return diskSuccess)) diskRetry

/-- The result, and the buffer after the call. -/
def diskRd (a : UInt32) (x : List UInt8) (n : ℕ) : Prog (ℤ × List UInt8) :=
  retry (diskFailure, x) (request
    (do
      pl011Puth 0x02
      pl011Putc (chr ' ')
      addrPuth a
      pl011Putc eol)
    (do
      let _ ← pl011Getc
      let x ← dataGeth x n
      let _ ← pl011Getc
      return (diskSuccess, x))) diskRetry

/-! ## What is sent -/

theorem addrPuth_eq (a : UInt32) : addrPuth a = puts (hexBytes (le32 a.toNat)) := by
  have hbyte (k : ℕ) (b : UInt32) (hb : b.toNat = a.toNat / k) :
      (b &&& 0xFF).toUInt8 = UInt8.ofNat (a.toNat / k) := by
    apply UInt8.toNat_inj.1
    have hand : a.toNat / k % 256 &&& 255 = a.toNat / k % 256 :=
      (Nat.and_two_pow_sub_one_eq_mod _ 8).trans (Nat.mod_mod _ _)
    simp [hb, hand]
  have h0 := hbyte 1 (a >>> 0) (by simp)
  have h1 := hbyte 256 (a >>> 8) (by simp [UInt32.toNat_shiftRight, Nat.shiftRight_eq_div_pow])
  have h2 := hbyte 65536 (a >>> 16) (by simp [UInt32.toNat_shiftRight, Nat.shiftRight_eq_div_pow])
  have h3 := hbyte 16777216 (a >>> 24)
    (by simp [UInt32.toNat_shiftRight, Nat.shiftRight_eq_div_pow])
  rw [Nat.div_one] at h0
  unfold addrPuth
  simp only [h0, h1, h2, h3, pl011Puth_eq, ← puts_append]
  simp [le32, hexBytes]

theorem forM_puth (x : List UInt8) (is : List ℕ) :
    is.forM (fun i => pl011Puth (x.getD i 0)) = puts (hexBytes (is.map fun i => x.getD i 0)) := by
  induction is with
  | nil => rfl
  | cons i is ih =>
    show (pl011Puth (x.getD i 0) >>= fun _ => is.forM fun i => pl011Puth (x.getD i 0)) = _
    rw [ih, pl011Puth_eq, ← puts_append]
    rfl

/-- The first `n` bytes of the buffer are sent. -/
theorem dataPuth_take {x : List UInt8} {n : ℕ} (h : n ≤ x.length) :
    dataPuth x n = puts (hexBytes (x.take n)) := by
  have hx : (List.range n).map (fun i => x.getD i 0) = x.take n := by
    apply List.ext_getElem
    · simp [h]
    · intro i hi hi'
      have hlt : i < x.length := by
        simp at hi'
        omega
      simp [hlt]
  rw [dataPuth, forM_puth, hx]

theorem dataPuth_eq {x : List UInt8} {n : ℕ} (h : x.length = n) :
    dataPuth x n = puts (hexBytes x) := by
  rw [dataPuth_take h.ge, List.take_of_length_le h.le]

/-! ## Request lines -/

/-- Byte strings in hexadecimal, separated by spaces. -/
def fields (xs : List (List UInt8)) : List UInt8 := [space].intercalate (xs.map hexBytes)

def confLine : List UInt8 := fields [[0x00]]

def wrLine (a : UInt32) (x : List UInt8) : List UInt8 := fields [[0x01], le32 a.toNat, x]

def rdLine (a : UInt32) : List UInt8 := fields [[0x02], le32 a.toNat]

theorem mem_hexBytes {x : List UInt8} {b : UInt8} (h : b ∈ hexBytes x) : 48 ≤ b ∧ b ≤ 70 := by
  obtain ⟨c, -, hc⟩ := List.mem_flatMap.1 h
  have := c.toNat_lt
  simp only [hexByte, List.mem_cons, List.not_mem_nil, or_false] at hc
  rcases hc with rfl | rfl
  · exact itox_range _ (by omega)
  · exact itox_range _ (by omega)

theorem mem_fields {xs : List (List UInt8)} {b : UInt8} (h : b ∈ fields xs) :
    b = space ∨ 48 ≤ b ∧ b ≤ 70 := by
  induction xs with
  | nil => simp [fields] at h
  | cons x xs ih =>
    rcases xs with _ | ⟨y, ys⟩
    · exact Or.inr (mem_hexBytes (by simpa [fields] using h))
    · unfold fields at h ih
      rw [List.map_cons, List.map_cons, List.intercalate_cons_cons, ← List.map_cons] at h
      rcases List.mem_append.1 h with h | h
      · rcases List.mem_append.1 h with h | h
        · exact Or.inr (mem_hexBytes h)
        · exact Or.inl (by simpa using h)
      · exact ih h

theorem eol_notMem_fields (xs : List (List UInt8)) : eol ∉ fields xs := by
  intro h
  rcases mem_fields h with h | h
  · exact absurd h (by decide)
  · exact absurd h.1 (by decide)

/-- What `disk_wr` does with a reply. -/
def wrReceive : Prog ℤ := do
  let _ ← pl011Getc
  return diskSuccess

/-- What `disk_rd` does with a reply. -/
def rdReceive (x : List UInt8) (n : ℕ) : Prog (ℤ × List UInt8) := do
  let _ ← pl011Getc
  let x ← dataGeth x n
  let _ ← pl011Getc
  return (diskSuccess, x)

theorem diskGet_eq (i : ℕ) :
    diskGet i = retry diskFailure (puts (confLine ++ [eol]) >>= fun _ => reply (do
      let _ ← pl011Getc
      let x ← dataGeth (List.replicate 8 0) 8
      let _ ← pl011Getc
      return intAt x i)) 3 := by
  unfold diskGet
  simp only [pl011Puth_eq, pl011Putc_eq, ← puts_append, request]
  simp [confLine, fields, hexBytes, diskRetry]

theorem diskWr_take (a : UInt32) {x : List UInt8} {n : ℕ} (h : n ≤ x.length) :
    diskWr a x n = retry diskFailure
      (puts (wrLine a (x.take n) ++ [eol]) >>= fun _ => reply wrReceive) 3 := by
  unfold diskWr
  simp only [addrPuth_eq, dataPuth_take h, pl011Puth_eq, pl011Putc_eq, ← puts_append, request]
  simp [wrLine, fields, List.intercalate, space, hexBytes, wrReceive, diskRetry]

theorem diskWr_eq (a : UInt32) {x : List UInt8} {n : ℕ} (h : x.length = n) :
    diskWr a x n = retry diskFailure (puts (wrLine a x ++ [eol]) >>= fun _ => reply wrReceive) 3 := by
  rw [diskWr_take a h.ge, List.take_of_length_le h.le]

theorem diskRd_eq (a : UInt32) (x : List UInt8) (n : ℕ) :
    diskRd a x n = retry (diskFailure, x)
      (puts (rdLine a ++ [eol]) >>= fun _ => reply (rdReceive x n)) 3 := by
  unfold diskRd
  simp only [addrPuth_eq, pl011Puth_eq, pl011Putc_eq, ← puts_append, request]
  simp [rdLine, fields, List.intercalate, space, hexBytes, rdReceive, diskRetry]

/-! ## Replies -/

theorem yields_reply_ok {α : Type} {receive : Prog α} {body : List UInt8} {a : α}
    (h : Yields receive body a) : Yields (reply receive) (chr '0' :: chr '0' :: body) (some a) := by
  have hsome : Yields (receive >>= fun a => .ret (some a)) (body ++ []) (some a) := h.bind rfl
  rw [List.append_nil] at hsome
  exact (show Yields pl011Geth [chr '0', chr '0'] 0x00 from yields_geth 0x00).bind hsome

/-- Any other status ends the attempt after one more byte. -/
theorem yields_reply_none {α : Type} (receive : Prog α) {h l : UInt8}
    (hne : ¬ (h = chr '0' ∧ l = chr '0')) (c : UInt8) : Yields (reply receive) [h, l, c] none := by
  have hpair : hexPair h l ≠ 0x00 := fun h0 => hne (hexPair_eq_zero.1 h0)
  have hrest : Yields (if hexPair h l = 0x00 then do return some (← receive)
      else do let _ ← pl011Getc; return none) ([c] ++ []) (none : Option α) := by
    rw [if_neg hpair]
    exact (yields_getc c).bind rfl
  exact (yields_hexPair h l).bind hrest

theorem yields_reply_fail {α : Type} (receive : Prog α) :
    Yields (reply receive) [chr '0', chr '1', eol] none :=
  yields_reply_none receive (by decide) eol

theorem dataGeth_succ (x : List UInt8) (n : ℕ) :
    dataGeth x (n + 1) = dataGeth x n >>= fun y => pl011Geth >>= fun b => .ret (y.set n b) := by
  unfold dataGeth
  rw [List.range_succ, List.foldlM_append]
  rfl

theorem receives_dataGeth (x : List UInt8) (n : ℕ) : Receives (dataGeth x n) (2 * n) := by
  induction n with
  | zero => trivial
  | succ n ih =>
    rw [dataGeth_succ]
    have hlast (y : List UInt8) : Receives (pl011Geth >>= fun b => .ret (y.set n b)) (2 + 0) :=
      receives_geth.bind fun b => trivial
    exact ih.bind hlast

/-- Pairs of characters, be they digits or not, are stored as bytes. -/
theorem yields_dataGeth_pairs (x : List UInt8) {n : ℕ} (h : n ≤ x.length) {s : List UInt8}
    (hs : s.length = 2 * n) : Yields (dataGeth x n) s (hexPairs s ++ x.drop n) := by
  induction n generalizing s with
  | zero =>
    obtain rfl := List.length_eq_zero_iff.1 hs
    exact rfl
  | succ n ih =>
    -- the last pair goes to `x[ n ]`
    obtain ⟨a, b, hab⟩ : ∃ a b, s.drop (2 * n) = [a, b] :=
      List.length_eq_two.1 (by rw [List.length_drop]; omega)
    have htake : (s.take (2 * n)).length = 2 * n := by rw [List.length_take]; omega
    have hy := ih (by omega) htake
    rw [← List.take_append_drop (2 * n) s, hab, hexPairs_append htake, dataGeth_succ]
    have hset : (hexPairs (s.take (2 * n)) ++ x.drop n).set n (hexPair a b) =
        hexPairs (s.take (2 * n)) ++ hexPairs [a, b] ++ x.drop (n + 1) := by
      have hlen := hexPairs_length htake
      rw [List.set_append_right _ _ hlen.le, hlen, Nat.sub_self,
        List.drop_eq_getElem_cons (show n < x.length by omega), List.set_cons_zero,
        List.append_assoc]
      rfl
    refine hy.bind ?_
    have hlast : Yields (pl011Geth >>= fun c =>
        .ret ((hexPairs (s.take (2 * n)) ++ x.drop n).set n c)) ([a, b] ++ [])
        (hexPairs (s.take (2 * n)) ++ hexPairs [a, b] ++ x.drop (n + 1)) :=
      (yields_hexPair a b).bind hset
    exact hlast

/-! ### Data there and back -/

/-- Digits, in either case, are received as the bytes they stand for. -/
theorem run_dataGeth {x buf t : List UInt8} (h : x.length ≤ buf.length) (ht : unhexlify t = .ok x)
    (s : List UInt8) :
    run (dataGeth buf x.length) (t ++ s) = some ⟨x ++ buf.drop x.length, [], s⟩ := by
  have hhex : Hex x.length t := hex_iff.2 ⟨x, ht, rfl⟩
  have hy := yields_dataGeth_pairs buf h hhex.1
  rw [hexPairs_of_unhexlify ht] at hy
  exact hy.run s

/-- **The codecs of the driver and of the server agree**: what `data_puth` sends, and
    what `hexlify` writes, `data_geth` and `unhexlify` take back. -/
theorem dataPuth_dataGeth {x buf : List UInt8} (h : x.length ≤ buf.length) (s : List UInt8) :
    ∃ sent, (∀ d, run (dataPuth x x.length) d = some ⟨(), sent, d⟩) ∧
      run (dataGeth buf x.length) (sent ++ s) = some ⟨x ++ buf.drop x.length, [], s⟩ ∧
      run (dataGeth buf x.length) (hexlify x ++ s) = some ⟨x ++ buf.drop x.length, [], s⟩ ∧
      unhexlify sent = .ok x ∧ Hex x.length sent ∧ space ∉ sent ∧ eol ∉ sent := by
  have hback := unhexlify_hexBytes x
  have hhex : Hex x.length (hexBytes x) := hex_iff.2 ⟨x, hback, rfl⟩
  refine ⟨hexBytes x, ?_, run_dataGeth h hback s, run_dataGeth h (unhexlify_hexlify x) s, hback,
    hhex, hhex.notMem (by decide), hhex.notMem (by decide)⟩
  intro d
  rw [dataPuth_eq rfl, run_puts]

/-- The bytes 0x0A and 0xFF, into a buffer of three. -/
theorem dataPuth_dataGeth_pair : ∃ sent,
    (∀ d, run (dataPuth [0x0A, 0xFF] 2) d = some ⟨(), sent, d⟩) ∧
    run (dataGeth [0, 0, 7] 2) (sent ++ [eol]) = some ⟨[0x0A, 0xFF, 7], [], [eol]⟩ ∧
    run (dataGeth [0, 0, 7] 2) (hexlify [0x0A, 0xFF] ++ [eol]) =
      some ⟨[0x0A, 0xFF, 7], [], [eol]⟩ ∧
    unhexlify sent = .ok [0x0A, 0xFF] ∧ Hex 2 sent ∧ space ∉ sent ∧ eol ∉ sent :=
  dataPuth_dataGeth (x := [0x0A, 0xFF]) (by decide) [eol]

/-- A reply with data is a separator, the data and an end of line, none of which is
    looked at. -/
theorem receives_framed {α : Type} (g : List UInt8 → α) (x : List UInt8) (n : ℕ) :
    Receives (do
      let _ ← pl011Getc
      let y ← dataGeth x n
      let _ ← pl011Getc
      return g y) (1 + (2 * n + 1)) := by
  have hlast (y : List UInt8) : Receives (pl011Getc >>= fun _ => Prog.ret (g y)) (1 + 0) :=
    receives_getc.bind fun _ => trivial
  exact receives_getc.bind fun _ => (receives_dataGeth x n).bind hlast

theorem yields_framed {α : Type} (g : List UInt8 → α) {x : List UInt8} {n : ℕ} (h : n ≤ x.length)
    (c c' : UInt8) {s : List UInt8} (hs : s.length = 2 * n) :
    Yields (do
      let _ ← pl011Getc
      let y ← dataGeth x n
      let _ ← pl011Getc
      return g y) (c :: (s ++ [c'])) (g (hexPairs s ++ x.drop n)) :=
  (yields_getc c).bind ((yields_dataGeth_pairs x h hs).bind ((yields_getc c').bind rfl))

theorem toNat_word (b₀ b₁ b₂ b₃ : UInt8) :
    (b₀.toUInt32 <<< 0 ||| b₁.toUInt32 <<< 8 ||| b₂.toUInt32 <<< 16 ||| b₃.toUInt32 <<< 24).toNat =
      b₀.toNat + 256 * b₁.toNat + 65536 * b₂.toNat + 16777216 * b₃.toNat := by
  have h0 := b₀.toNat_lt
  have h1 := b₁.toNat_lt
  have h2 := b₂.toNat_lt
  have h3 := b₃.toNat_lt
  have hor (x y : ℕ) (i : ℕ) (hx : x < 2 ^ i) : x ||| y <<< i = x + y * 2 ^ i := by
    rw [Nat.or_comm, ← Nat.shiftLeft_add_eq_or_of_lt hx, Nat.shiftLeft_eq, Nat.add_comm]
  have hmod (y i : ℕ) (hy : y * 2 ^ i < 2 ^ 32) : y <<< i % 2 ^ 32 = y <<< i := by
    rw [Nat.shiftLeft_eq, Nat.mod_eq_of_lt hy]
  have hs (b : UInt8) (i : UInt32) (hi : b.toNat * 2 ^ (i.toNat % 32) < 2 ^ 32) :
      (b.toUInt32 <<< i).toNat = b.toNat <<< (i.toNat % 32) := by
    rw [UInt32.toNat_shiftLeft, UInt8.toNat_toUInt32, hmod _ _ hi]
  rw [UInt32.toNat_or, UInt32.toNat_or, UInt32.toNat_or, hs b₀ 0 (by simp; omega),
    hs b₁ 8 (by simp; omega), hs b₂ 16 (by simp; omega), hs b₃ 24 (by simp; omega)]
  show b₀.toNat <<< 0 ||| b₁.toNat <<< 8 ||| b₂.toNat <<< 16 ||| b₃.toNat <<< 24 = _
  rw [Nat.shiftLeft_zero, hor _ _ 8 (by omega), hor _ _ 16 (by omega), hor _ _ 24 (by omega)]
  omega

/-- The driver reads a number below 2^31 as the server has packed it. -/
theorem intAt_le32 {x : List UInt8} {i k : ℕ} (h : k < 2 ^ 31)
    (hx : ∀ j < 4, x.getD (i + j) 0 = (le32 k).getD j 0) : intAt x i = k := by
  have h0 := hx 0 (by decide)
  have h1 := hx 1 (by decide)
  have h2 := hx 2 (by decide)
  have h3 := hx 3 (by decide)
  have hb (j : ℕ) : (UInt8.ofNat j).toNat = j % 256 := UInt8.toNat_ofNat'
  rw [Nat.add_zero] at h0
  unfold intAt
  rw [h0, h1, h2, h3, BitVec.toInt_eq_toNat_cond, UInt32.toNat_toBitVec, toNat_word]
  simp only [le32, List.getD_cons_zero, List.getD_cons_succ, hb]
  rw [if_pos (by omega)]
  omega

end CcKernel
