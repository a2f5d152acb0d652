/-
  The disk server (`device/disk.py`).

  `os.write` may store fewer bytes than it is given: the counts it is going to
  return are part of the state.  `loopBody` is the body of the main loop: it
  answers a line, or an exception ends the server.
-/
import CcKernel.Lib.PyStr
import CcKernel.Lib.Blocks
import CcKernel.Lib.Duplex

namespace CcKernel

open PyStr Blocks

/-- `args.block_num` and `args.block_len` -/
structure Geometry where
  blockNum : ℕ
  blockLen : ℕ
  blockNum_pos : 1 ≤ blockNum
  blockLen_pos : 1 ≤ blockLen
  blockNum_lt : blockNum < 2 ^ 31
  blockLen_lt : blockLen < 2 ^ 31

/-- A block is not empty. -/
theorem Geometry.ne_nil (g : Geometry) {x : Str} (h : x.length = g.blockLen) : x ≠ [] := by
  rintro rfl
  exact absurd h (Nat.ne_of_lt g.blockLen_pos)

/-- The image, and what the next calls of `os.write` return; full counts when the
    list has come to its end. -/
structure DiskState where
  file : File
  counts : List ℕ
  deriving DecidableEq, Repr

def reqConf : Str := [chr '0', chr '0']
def reqWr : Str := [chr '0', chr '1']
def reqRd : Str := [chr '0', chr '2']

def ackOkay : Str := [chr '0', chr '0']
def ackFail : Str := [chr '0', chr '1']

/-- `os.lseek( fd, off, os.SEEK_SET )` -/
def lseek (off : ℤ) : Except Exn ℕ :=
  if off < 0 then .error .osError else .ok off.toNat

/-- `os.write( fd, data )` at the offset. -/
def osWrite (off : ℕ) (data : Str) (d : DiskState) : ℕ × DiskState :=
  let n := min (d.counts.headD data.length) data.length
  (n, ⟨writeAt d.file off (data.take n), d.counts.tail⟩)

section
variable (g : Geometry)

def conf (d : DiskState) : Except Exn (List Str × DiskState) := do
  let num ← packL g.blockNum
  let len ← packL g.blockLen
  return ([ackOkay, num ++ len], d)

def wr (req : List Str) (d : DiskState) : Except Exn (List Str × DiskState) := do
  let address ← unpackL (← unhexlify (← item req 1))
  let data ← unhexlify (← item req 2)
  if address ≥ g.blockNum then
    return ([ackFail], d)
  if data.length ≠ g.blockLen then
    return ([ackFail], d)
  let off ← lseek (address * g.blockLen)
  let (n, d) := osWrite off data d
  if data.length ≠ n then
    return ([ackFail], d)
  return ([ackOkay], d)

def rd (req : List Str) (d : DiskState) : Except Exn (List Str × DiskState) := do
  let address ← unpackL (← unhexlify (← item req 1))
  if address ≥ g.blockNum then
    return ([ackFail], d)
  let off ← lseek (address * g.blockLen)
  let data := readAt d.file off g.blockLen
  if data.length ≠ g.blockLen then
    return ([ackFail], d)
  return ([ackOkay, data], d)

/-- `ack`, from a list to a string. -/
def ackString : List Str → Str
  | [] => []
  | [a] => a
  | a :: xs => a ++ [space] ++ [space].intercalate (xs.map hexlify)

/-- The acknowledgement of a request; `split` has left at least one field. -/
def acknowledge (req : List Str) (d : DiskState) : Except Exn (List Str × DiskState) :=
  if req.headD [] = reqConf then conf g d
  else if req.headD [] = reqWr then wr g req d
  else if req.headD [] = reqRd then rd g req d
  else .ok ([ackFail], d)

def loopBody (d : DiskState) (line : Str) : Except Exn (Str × DiskState) := do
  let req := split (strip line)
  let (ack, d) ← acknowledge g req d
  return (ackString ack ++ [chr '\n'], d)

/-- The server: `readline` leaves the end of line on the line. -/
def diskServer : Duplex.Server Exn DiskState := fun d line => loopBody g d (line ++ [Duplex.eol])

end

/-! ## The commands -/

section
variable {g : Geometry} {d : DiskState}

theorem conf_eq (g : Geometry) (d : DiskState) :
    conf g d = .ok ([ackOkay, le32 g.blockNum ++ le32 g.blockLen], d) := by
  unfold conf
  rw [packL_of_lt g.blockNum_lt, packL_of_lt g.blockLen_lt]
  rfl

/-- The address in a field of a request. -/
def addressOf (field : Str) : Except Exn ℤ := do
  unpackL (← unhexlify field)

theorem addressOf_eq_ok {field : Str} {a : ℤ} (h : addressOf field = .ok a) :
    ∃ bs, unhexlify field = .ok bs ∧ unpackL bs = .ok a := by
  unfold addressOf at h
  rcases hb : unhexlify field with e | bs
  · rw [hb] at h; cases h
  · rw [hb] at h; exact ⟨bs, rfl, h⟩

theorem address_ok {β : Type} {field : Str} {a : ℤ} (h : addressOf field = .ok a)
    (k : ℤ → Except Exn β) : (unhexlify field >>= fun bs => unpackL bs >>= k) = k a := by
  rw [← bind_assoc]
  show (addressOf field >>= k) = _
  rw [h]
  rfl

theorem address_error {β : Type} {field : Str} {e : Exn} (h : addressOf field = .error e)
    (k : ℤ → Except Exn β) : (unhexlify field >>= fun bs => unpackL bs >>= k) = .error e := by
  rw [← bind_assoc]
  show (addressOf field >>= k) = _
  rw [h]
  rfl

theorem lseek_of_neg {a : ℤ} (h : a < 0) : lseek (a * g.blockLen) = .error .osError := by
  have := g.blockLen_pos
  exact if_pos (Int.mul_neg_of_neg_of_pos h (by omega))

theorem lseek_of_nonneg {a : ℤ} (h : 0 ≤ a) :
    lseek (a * g.blockLen) = .ok (a.toNat * g.blockLen) := by
  obtain ⟨k, rfl⟩ := Int.eq_ofNat_of_zero_le h
  unfold lseek
  rw [if_neg (by exact not_lt.2 (Int.mul_nonneg h (Int.natCast_nonneg _))), ← Int.natCast_mul]
  rfl

/-- A write whose fields can be decoded. -/
theorem wr_eq {cmd ah dh : Str} {rest : List Str} {a : ℤ} {data : Str} (ha : addressOf ah = .ok a)
    (hd : unhexlify dh = .ok data) :
    wr g (cmd :: ah :: dh :: rest) d =
      if g.blockNum ≤ a ∨ data.length ≠ g.blockLen then .ok ([ackFail], d)
      else if a < 0 then .error .osError
      else .ok ([if (osWrite (a.toNat * g.blockLen) data d).1 = g.blockLen then ackOkay else ackFail],
        (osWrite (a.toNat * g.blockLen) data d).2) := by
  have hwr : wr g (cmd :: ah :: dh :: rest) d =
      (if a ≥ g.blockNum then .ok ([ackFail], d)
      else if data.length ≠ g.blockLen then .ok ([ackFail], d)
      else (lseek (a * g.blockLen)).bind fun off =>
        if data.length ≠ (osWrite off data d).1 then .ok ([ackFail], (osWrite off data d).2)
        else .ok ([ackOkay], (osWrite off data d).2)) := by
    refine (address_ok ha _).trans ?_
    show (unhexlify dh >>= _) = _
    rw [hd]
    rfl
  rw [hwr]
  by_cases hlo : (g.blockNum : ℤ) ≤ a
  · rw [if_pos hlo, if_pos (Or.inl hlo)]
  by_cases hlen : data.length = g.blockLen
  · rw [if_neg hlo, if_neg (by simp [hlen]), if_neg (by simp [hlo, hlen])]
    by_cases hneg : a < 0
    · rw [if_pos hneg, lseek_of_neg hneg]
      rfl
    · rw [if_neg hneg, lseek_of_nonneg (by omega)]
      show (if data.length ≠ (osWrite (a.toNat * g.blockLen) data d).1 then _ else _) = _
      rw [hlen]
      split
      · rename_i hn
        rw [if_neg (Ne.symm hn)]
      · rename_i hn
        rw [if_pos (not_not.1 hn).symm]
  · rw [if_neg hlo, if_pos hlen, if_pos (Or.inr hlen)]

/-- A write without a data field. -/
theorem wr_no_data {cmd ah : Str} {a : ℤ} (ha : addressOf ah = .ok a) :
    wr g [cmd, ah] d = .error .indexError := address_ok ha _

/-- A read whose address can be decoded. -/
theorem rd_eq {cmd ah : Str} {rest : List Str} {a : ℤ} (ha : addressOf ah = .ok a) :
    rd g (cmd :: ah :: rest) d =
      if g.blockNum ≤ a then .ok ([ackFail], d)
      else if a < 0 then .error .osError
      else if (block g.blockLen d.file a.toNat).length ≠ g.blockLen then .ok ([ackFail], d)
      else .ok ([ackOkay, block g.blockLen d.file a.toNat], d) := by
  have hrd : rd g (cmd :: ah :: rest) d =
      (if a ≥ g.blockNum then .ok ([ackFail], d)
      else (lseek (a * g.blockLen)).bind fun off =>
        if (readAt d.file off g.blockLen).length ≠ g.blockLen then .ok ([ackFail], d)
        else .ok ([ackOkay, readAt d.file off g.blockLen], d)) := address_ok ha _
  rw [hrd]
  by_cases hlo : (g.blockNum : ℤ) ≤ a
  · rw [if_pos hlo, if_pos hlo]
  rw [if_neg hlo, if_neg hlo]
  by_cases hneg : a < 0
  · rw [if_pos hneg, lseek_of_neg hneg]
    rfl
  · rw [if_neg hneg, lseek_of_nonneg (by omega)]
    rfl

/-! ## The main loop -/

theorem loopBody_ok {line : Str} {ack : List Str} {d' : DiskState}
    (h : acknowledge g (split (strip line)) d = .ok (ack, d')) :
    loopBody g d line = .ok (ackString ack ++ [chr '\n'], d') := by
  unfold loopBody
  simp only [h]
  rfl

theorem loopBody_error {line : Str} {e : Exn}
    (h : acknowledge g (split (strip line)) d = .error e) :
    loopBody g d line = .error e := by
  unfold loopBody
  simp only [h]
  rfl

theorem acknowledge_conf (rest : List Str) :
    acknowledge g (reqConf :: rest) d = conf g d := if_pos rfl

theorem acknowledge_wr (rest : List Str) :
    acknowledge g (reqWr :: rest) d = wr g (reqWr :: rest) d := by
  unfold acknowledge
  rw [List.headD_cons, if_neg (by decide), if_pos rfl]

theorem acknowledge_rd (rest : List Str) :
    acknowledge g (reqRd :: rest) d = rd g (reqRd :: rest) d := by
  unfold acknowledge
  rw [List.headD_cons, if_neg (by decide), if_neg (by decide), if_pos rfl]

/-- An unknown command. -/
theorem acknowledge_other {cmd : Str} (h : cmd ∉ [reqConf, reqWr, reqRd]) (rest : List Str) :
    acknowledge g (cmd :: rest) d = .ok ([ackFail], d) := by
  simp only [List.mem_cons, List.not_mem_nil, or_false, not_or] at h
  unfold acknowledge
  rw [List.headD_cons, if_neg h.1, if_neg h.2.1, if_neg h.2.2]

end

end CcKernel
