/-
  The driver's requests, answered by the server.

  The lines the driver sends are fields in hexadecimal, which the server splits
  and decodes again; below, what each function of the driver returns and what it
  leaves of the image, by cases on the server's answer.
-/
import Mathlib.Data.List.GetD
import CcKernel.Device.Disk
import CcKernel.Device.DiskServer

namespace CcKernel

open Duplex PyStr Blocks

/-! ## Lines -/

theorem not_isSpace {x : List UInt8} {b : UInt8} (h : b ∈ hexBytes x) : ¬ isSpace b := by
  obtain ⟨hlo, -⟩ := mem_hexBytes h
  rw [UInt8.le_iff_toNat_le] at hlo
  intro hs
  simp only [isSpace, Bool.or_eq_true, Bool.and_eq_true, decide_eq_true_eq,
    UInt8.le_iff_toNat_le] at hs
  rcases hs with ⟨-, hs⟩ | rfl
  · exact absurd (hlo.trans hs) (by decide)
  · exact absurd hlo (by decide)

theorem fields_singleton (x : List UInt8) : fields [x] = hexBytes x := by
  simp [fields]

theorem fields_cons (x : List UInt8) {xs : List (List UInt8)} (h : xs ≠ []) :
    fields (x :: xs) = hexBytes x ++ space :: fields xs := by
  cases xs with
  | nil => exact absurd rfl h
  | cons y ys => simp [fields, List.intercalate]

theorem hexBytes_head {x : List UInt8} (h : x ≠ []) : ∃ b t, hexBytes x = b :: t ∧ ¬ isSpace b := by
  rcases hx : hexBytes x with _ | ⟨b, t⟩
  · cases x with
    | nil => exact absurd rfl h
    | cons c x => simp [hexBytes, hexByte] at hx
  · exact ⟨b, t, rfl, not_isSpace (show b ∈ hexBytes x by rw [hx]; exact List.mem_cons_self)⟩

theorem hexBytes_last {x : List UInt8} (h : x ≠ []) :
    ∃ u c, hexBytes x = u ++ [c] ∧ ¬ isSpace c := by
  obtain ⟨b, t, hb, -⟩ := hexBytes_head h
  have hne : hexBytes x ≠ [] := by rw [hb]; exact List.cons_ne_nil b t
  exact ⟨_, _, (List.dropLast_concat_getLast hne).symm, not_isSpace (List.getLast_mem hne)⟩

theorem fields_last {xs : List (List UInt8)} (h : ∀ x ∈ xs, x ≠ []) (hxs : xs ≠ []) :
    ∃ u c, fields xs = u ++ [c] ∧ ¬ isSpace c := by
  induction xs with
  | nil => exact absurd rfl hxs
  | cons x xs ih =>
    rcases xs with _ | ⟨y, ys⟩
    · rw [fields_singleton]
      exact hexBytes_last (h x List.mem_cons_self)
    · obtain ⟨u, c, hu, hc⟩ :=
        ih (fun z hz => h z (List.mem_cons_of_mem _ hz)) (List.cons_ne_nil y ys)
      refine ⟨hexBytes x ++ space :: u, c, ?_, hc⟩
      rw [fields_cons x (List.cons_ne_nil y ys), hu, List.append_assoc, List.cons_append]

/-- A line of non-empty fields has no spaces at its ends. -/
theorem strip_fields {xs : List (List UInt8)} (h : ∀ x ∈ xs, x ≠ []) (hxs : xs ≠ []) :
    strip (fields xs) = fields xs := by
  obtain ⟨u, c, hu, hc⟩ := fields_last h hxs
  rcases xs with _ | ⟨x, xs⟩
  · exact absurd rfl hxs
  · obtain ⟨b, t, hb, hbs⟩ := hexBytes_head (h x List.mem_cons_self)
    rcases xs with _ | ⟨y, ys⟩
    · rw [fields_singleton] at hu ⊢
      exact strip_eq_self hb hbs hu hc
    · have hhead : fields (x :: y :: ys) = b :: (t ++ space :: fields (y :: ys)) := by
        rw [fields_cons x (List.cons_ne_nil y ys), hb, List.cons_append]
      exact strip_eq_self hhead hbs hu hc

/-- What the server makes of a line of the driver. -/
theorem split_fields {xs : List (List UInt8)} (h : ∀ x ∈ xs, x ≠ []) (hxs : xs ≠ []) :
    split (strip (fields xs ++ [eol])) = xs.map hexBytes := by
  rw [strip_append_space (by decide), strip_fields h hxs]
  refine split_intercalate (fun f hf => ?_) (by simpa using hxs)
  obtain ⟨x, -, rfl⟩ := List.mem_map.1 hf
  intro hs
  exact not_isSpace hs (by decide)

/-! ## Answers -/

/-- The address the server decodes: the driver's, as a signed number. -/
def signed (a : UInt32) : ℤ := if a.toNat < 2 ^ 31 then a.toNat else a.toNat - 2 ^ 32

theorem signed_of_lt {a : UInt32} (h : a.toNat < 2 ^ 31) : signed a = a.toNat := if_pos h

theorem signed_neg {a : UInt32} (h : 2 ^ 31 ≤ a.toNat) : signed a < 0 := by
  have := a.toNat_lt
  unfold signed
  rw [if_neg (by omega)]
  omega

theorem addressOf_hexBytes (a : UInt32) : addressOf (hexBytes (le32 a.toNat)) = .ok (signed a) := by
  unfold addressOf
  rw [unhexlify_hexBytes]
  exact unpackL_le32 a.toNat_lt

section
variable {g : Geometry} {d : DiskState} {a : UInt32}

theorem acknowledge_confLine (g : Geometry) (d : DiskState) :
    acknowledge g (split (strip (confLine ++ [eol]))) d =
      .ok ([ackOkay, le32 g.blockNum ++ le32 g.blockLen], d) := by
  have hsplit : split (strip (confLine ++ [eol])) = [reqConf] := split_fields (by simp) (by simp)
  rw [hsplit, acknowledge_conf, conf_eq]

theorem split_wrLine (a : UInt32) {x : List UInt8} (hx : x ≠ []) :
    split (strip (wrLine a x ++ [eol])) = [reqWr, hexBytes (le32 a.toNat), hexBytes x] :=
  split_fields (by simp [hx, le32]) (by simp)

theorem split_rdLine (a : UInt32) :
    split (strip (rdLine a ++ [eol])) = [reqRd, hexBytes (le32 a.toNat)] :=
  split_fields (by simp [le32]) (by simp)

/-- An empty data field is stripped off. -/
theorem split_wrLine_nil (a : UInt32) :
    split (strip (wrLine a [] ++ [eol])) = [reqWr, hexBytes (le32 a.toNat)] := by
  have hline : wrLine a [] ++ [eol] = fields [[0x01], le32 a.toNat] ++ [space] ++ [eol] := by
    simp [wrLine, fields, List.intercalate, hexBytes]
  have hsplit : split (strip (fields [[0x01], le32 a.toNat] ++ [eol])) =
      [reqWr, hexBytes (le32 a.toNat)] := split_fields (by simp [le32]) (by simp)
  rw [hline, strip_append_space (by decide), strip_append_space (by decide)]
  rwa [strip_append_space (by decide)] at hsplit

theorem acknowledge_wrLine (a : UInt32) {x : List UInt8} (hx : x ≠ []) :
    acknowledge g (split (strip (wrLine a x ++ [eol]))) d =
      if g.blockNum ≤ signed a ∨ x.length ≠ g.blockLen then .ok ([ackFail], d)
      else if signed a < 0 then .error .osError
      else .ok ([if (osWrite ((signed a).toNat * g.blockLen) x d).1 = g.blockLen then ackOkay
          else ackFail], (osWrite ((signed a).toNat * g.blockLen) x d).2) := by
  rw [split_wrLine a hx, acknowledge_wr, wr_eq (addressOf_hexBytes a) (unhexlify_hexBytes x)]

theorem acknowledge_rdLine (a : UInt32) :
    acknowledge g (split (strip (rdLine a ++ [eol]))) d =
      if g.blockNum ≤ signed a then .ok ([ackFail], d)
      else if signed a < 0 then .error .osError
      else if (block g.blockLen d.file (signed a).toNat).length ≠ g.blockLen then .ok ([ackFail], d)
      else .ok ([ackOkay, block g.blockLen d.file (signed a).toNat], d) := by
  rw [split_rdLine, acknowledge_rd, rd_eq (addressOf_hexBytes a)]

/-- A read from a valid address. -/
theorem acknowledge_rdLine_valid (ha : a.toNat < g.blockNum) :
    acknowledge g (split (strip (rdLine a ++ [eol]))) d =
      if (block g.blockLen d.file a.toNat).length ≠ g.blockLen then .ok ([ackFail], d)
      else .ok ([ackOkay, block g.blockLen d.file a.toNat], d) := by
  have hlt := g.blockNum_lt
  rw [acknowledge_rdLine, signed_of_lt (by omega), if_neg (by omega), if_neg (by omega),
    Int.toNat_natCast]

/-- The server does not survive an empty data field. -/
theorem acknowledge_wrLine_nil (a : UInt32) :
    acknowledge g (split (strip (wrLine a [] ++ [eol]))) d = .error .indexError := by
  rw [split_wrLine_nil, acknowledge_wr, wr_no_data (addressOf_hexBytes a)]

end

/-! ## Retry loops -/

section
variable {α ε σ : Type} {srv : Server ε σ} {fail : α} {round : Prog (Option α)} {k : ℕ}
  {st st' st'' : σ} {a : α}

theorem calls_retry_zero : Calls srv (retry fail round 0) st fail st := rfl

theorem calls_retry_some (h : Calls srv round st (some a) st') :
    Calls srv (retry fail round (k + 1)) st a st' :=
  h.bind (Calls.ret a st')

theorem calls_retry_none (h : Calls srv round st none st')
    (h' : Calls srv (retry fail round k) st' a st'') :
    Calls srv (retry fail round (k + 1)) st a st'' :=
  h.bind h'

theorem hangs_retry {e : ε} (h : Hangs srv round st e) :
    Hangs srv (retry fail round (k + 1)) st e := h.bind _

/-- A request that is rejected without a trace is rejected every time. -/
theorem calls_retry_rejected (h : Calls srv round st none st) (k : ℕ) :
    Calls srv (retry fail round k) st fail st := by
  induction k with
  | zero => exact calls_retry_zero
  | succ k ih => exact calls_retry_none h ih

end

/-! ## Rounds -/

section
variable {α : Type} {g : Geometry} {d d' : DiskState} {line : List UInt8} {receive : Prog α} {a : α}

/-- A rejected request. -/
theorem calls_round_fail (hline : eol ∉ line)
    (h : acknowledge g (split (strip (line ++ [eol]))) d = .ok ([ackFail], d')) :
    Calls (diskServer g) (puts (line ++ [eol]) >>= fun _ => reply receive) d none d' :=
  calls_exchange hline (loopBody_ok h) (yields_reply_fail receive)

/-- An accepted request without data. -/
theorem calls_round_okay (hline : eol ∉ line)
    (h : acknowledge g (split (strip (line ++ [eol]))) d = .ok ([ackOkay], d'))
    (hy : Yields receive [eol] a) :
    Calls (diskServer g) (puts (line ++ [eol]) >>= fun _ => reply receive) d (some a) d' :=
  calls_exchange hline (loopBody_ok h) (yields_reply_ok hy)

theorem ackString_data (data : List UInt8) :
    ackString [ackOkay, data] ++ [chr '\n'] =
      chr '0' :: chr '0' :: (space :: (hexlify data ++ [eol])) := by
  simp [ackString, ackOkay, List.intercalate]
  rfl

/-- An accepted request with data. -/
theorem calls_round_data {data : List UInt8} (hline : eol ∉ line)
    (h : acknowledge g (split (strip (line ++ [eol]))) d = .ok ([ackOkay, data], d'))
    (hy : Yields receive (space :: (hexlify data ++ [eol])) a) :
    Calls (diskServer g) (puts (line ++ [eol]) >>= fun _ => reply receive) d (some a) d' := by
  refine calls_exchange hline (loopBody_ok h) ?_
  rw [ackString_data]
  exact yields_reply_ok hy

/-- A request the server does not survive. -/
theorem hangs_round {e : Exn} (hline : eol ∉ line)
    (h : acknowledge g (split (strip (line ++ [eol]))) d = .error e) :
    Hangs (diskServer g) (puts (line ++ [eol]) >>= fun _ => reply receive) d e :=
  hangs_exchange hline (loopBody_error h) rfl

end

/-! ## The functions of the driver -/

section
variable {g : Geometry} {d : DiskState} {a : UInt32} {x : List UInt8}

theorem yields_data {β : Type} {data buf : List UInt8} {n : ℕ} (hbuf : buf.length = n)
    (hdata : data.length = n) (f : List UInt8 → β) :
    Yields (pl011Getc >>= fun _ => dataGeth buf n >>= fun x => pl011Getc >>= fun _ =>
      .ret (f x)) (space :: (hexlify data ++ [eol])) (f data) := by
  subst hdata
  have hy := yields_framed f hbuf.ge space eol (hexlify_length data)
  rwa [hexPairs_of_unhexlify (unhexlify_hexlify data), List.drop_eq_nil_of_le hbuf.le,
    List.append_nil] at hy

theorem eol_notMem_wrLine (a : UInt32) (x : List UInt8) : eol ∉ wrLine a x := eol_notMem_fields _

theorem eol_notMem_rdLine (a : UInt32) : eol ∉ rdLine a := eol_notMem_fields _

theorem calls_diskGet (g : Geometry) (d : DiskState) (i : ℕ) :
    Calls (diskServer g) (diskGet i) d (intAt (le32 g.blockNum ++ le32 g.blockLen) i) d := by
  have hy : Yields (do
      let _ ← pl011Getc
      let x ← dataGeth (List.replicate 8 0) 8
      let _ ← pl011Getc
      return intAt x i) (space :: (hexlify (le32 g.blockNum ++ le32 g.blockLen) ++ [eol]))
        (intAt (le32 g.blockNum ++ le32 g.blockLen) i) :=
    yields_data (List.length_replicate) (by simp [le32]) fun x => intAt x i
  rw [diskGet_eq]
  exact calls_retry_some (calls_round_data (eol_notMem_fields _) (acknowledge_confLine g d) hy)

theorem calls_diskGetBlockNum (g : Geometry) (d : DiskState) :
    Calls (diskServer g) diskGetBlockNum d g.blockNum d := by
  have hint : intAt (le32 g.blockNum ++ le32 g.blockLen) 0 = g.blockNum := by
    refine intAt_le32 g.blockNum_lt fun j hj => ?_
    rw [Nat.zero_add]
    exact List.getD_append _ _ _ _ hj
  exact hint ▸ calls_diskGet g d 0

theorem calls_diskGetBlockLen (g : Geometry) (d : DiskState) :
    Calls (diskServer g) diskGetBlockLen d g.blockLen d := by
  have hint : intAt (le32 g.blockNum ++ le32 g.blockLen) 4 = g.blockLen := by
    refine intAt_le32 g.blockLen_lt fun j _ => ?_
    rw [List.getD_append_right _ _ _ _ (Nat.le_add_right 4 j)]
    exact congrArg (fun k => (le32 g.blockLen).getD k 0) (Nat.add_sub_cancel_left 4 j)
  exact hint ▸ calls_diskGet g d 4

/-- A write of the right length to a valid address: one round. -/
theorem calls_wrRound (ha : a.toNat < g.blockNum) (hx : x.length = g.blockLen) :
    Calls (diskServer g) (puts (wrLine a x ++ [eol]) >>= fun _ => reply wrReceive) d
      (if (osWrite (a.toNat * g.blockLen) x d).1 = g.blockLen then some diskSuccess else none)
      (osWrite (a.toNat * g.blockLen) x d).2 := by
  have hlt := g.blockNum_lt
  have hack := acknowledge_wrLine (g := g) (d := d) a (g.ne_nil hx)
  rw [signed_of_lt (by omega), if_neg (by omega), if_neg (by omega), Int.toNat_natCast] at hack
  split at hack
  · rename_i hn
    rw [if_pos hn]
    exact calls_round_okay (eol_notMem_wrLine a x) hack rfl
  · rename_i hn
    rw [if_neg hn]
    exact calls_round_fail (eol_notMem_wrLine a x) hack

/-- If `os.write` stores everything, one round is enough. -/
theorem calls_diskWr (ha : a.toNat < g.blockNum) (hx : x.length = g.blockLen) (hd : d.counts = []) :
    Calls (diskServer g) (diskWr a x g.blockLen) d diskSuccess
      ⟨writeAt d.file (a.toNat * g.blockLen) x, []⟩ := by
  have h := calls_wrRound (d := d) ha hx
  have hn : osWrite (a.toNat * g.blockLen) x d =
      (g.blockLen, ⟨writeAt d.file (a.toNat * g.blockLen) x, []⟩) := by
    simp [osWrite, hd, hx, List.take_of_length_le hx.le]
  rw [hn, if_pos rfl] at h
  rw [diskWr_eq a hx]
  exact calls_retry_some h

/-- A write that the server rejects before it touches the image. -/
theorem calls_diskWr_rejected {n : ℕ} (hx : x.length = n) (hne : x ≠ [])
    (h : g.blockNum ≤ signed a ∨ n ≠ g.blockLen) :
    Calls (diskServer g) (diskWr a x n) d diskFailure d := by
  rw [diskWr_eq a hx]
  refine calls_retry_rejected (calls_round_fail (eol_notMem_wrLine a x) ?_) 3
  rw [acknowledge_wrLine a hne, if_pos (by rwa [hx])]

/-- A write to an address that the server takes for a negative one. -/
theorem hangs_diskWr_negative (ha : 2 ^ 31 ≤ a.toNat) (hx : x.length = g.blockLen) :
    Hangs (diskServer g) (diskWr a x g.blockLen) d .osError := by
  have hneg := signed_neg ha
  rw [diskWr_eq a hx]
  refine hangs_retry (hangs_round (eol_notMem_wrLine a x) ?_)
  rw [acknowledge_wrLine a (g.ne_nil hx), if_neg (by omega), if_pos hneg]

/-- A write of no data. -/
theorem hangs_diskWr_nil (a : UInt32) :
    Hangs (diskServer g) (diskWr a [] 0) d .indexError := by
  have h0 : ([] : List UInt8).length = 0 := rfl
  rw [diskWr_eq a h0]
  exact hangs_retry (hangs_round (eol_notMem_wrLine a []) (acknowledge_wrLine_nil a))

/-- A read of a block that is there. -/
theorem calls_diskRd (ha : a.toNat < g.blockNum) (hx : x.length = g.blockLen)
    (hd : (block g.blockLen d.file a.toNat).length = g.blockLen) :
    Calls (diskServer g) (diskRd a x g.blockLen) d
      (diskSuccess, block g.blockLen d.file a.toNat) d := by
  have hack := acknowledge_rdLine_valid (d := d) ha
  rw [if_neg (not_not.2 hd)] at hack
  rw [diskRd_eq]
  refine calls_retry_some (calls_round_data (eol_notMem_rdLine a) hack ?_)
  exact yields_data hx hd fun x => (diskSuccess, x)

/-- A read that the server rejects. -/
theorem calls_diskRd_rejected (n : ℕ) (h : acknowledge g (split (strip (rdLine a ++ [eol]))) d =
    .ok ([ackFail], d)) : Calls (diskServer g) (diskRd a x n) d (diskFailure, x) d := by
  rw [diskRd_eq]
  exact calls_retry_rejected (calls_round_fail (eol_notMem_rdLine a) h) 3

/-- A read from an address that the server takes for a negative one. -/
theorem hangs_diskRd_negative (n : ℕ) (ha : 2 ^ 31 ≤ a.toNat) :
    Hangs (diskServer g) (diskRd a x n) d .osError := by
  have hneg := signed_neg ha
  rw [diskRd_eq]
  refine hangs_retry (hangs_round (eol_notMem_rdLine a) ?_)
  rw [acknowledge_rdLine, if_neg (by omega), if_pos hneg]

end

end CcKernel
