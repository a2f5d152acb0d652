/-
  The disk server, whatever lines it is sent.

  `DiskStore` and `DiskLink` are about the driver's sessions.  Here nothing is
  assumed of the other side: `Request.of` is what a line asks for, and the
  server with its image is a disk that answers requests.  So the image keeps its
  length, every byte of it is from the image at the start or from an accepted
  write to that place, and acknowledged data stays until the block is written
  again.
-/
import CcKernel.Device.DiskLines
import CcKernel.Device.DiskLink

namespace CcKernel

open Duplex Lts PyStr Blocks

variable {g : Geometry}

/-! ## Requests -/

/-- What a line asks for: a request to answer, one to reject, or an exception. -/
inductive Request (g : Geometry) where
  | conf
  | wr (a : Addr g) (x : Block g)
  | rd (a : Addr g)
  | reject
  | raise (e : Exn)

namespace Request

/-- The request for a block, once the address is decoded. -/
def forBlock (a : ℤ) (request : Addr g → Request g) : Request g :=
  if ha : 0 ≤ a ∧ a < g.blockNum then
    request ⟨UInt32.ofNat a.toNat, by
      have := g.blockNum_lt
      rw [UInt32.toNat_ofNat_of_lt' (by simp only [UInt32.size]; omega)]
      omega⟩
  else if a < 0 then raise .osError
  else reject

/-- A write is rejected for its length before `lseek` fails for its address. -/
def ofWr : List Str → Request g
  | ah :: dh :: _ =>
    match addressOf ah, unhexlify dh with
    | .ok a, .ok x =>
      if hx : x.length = g.blockLen then forBlock a fun a => wr a ⟨x, hx⟩ else reject
    | .ok _, .error e => raise e
    | .error e, _ => raise e
  | [ah] =>
    match addressOf ah with
    | .ok _ => raise .indexError
    | .error e => raise e
  | [] => raise .indexError

def ofRd : List Str → Request g
  | ah :: _ =>
    match addressOf ah with
    | .ok a => forBlock a rd
    | .error e => raise e
  | [] => raise .indexError

def ofFields : List Str → Request g
  | cmd :: args =>
    if cmd = reqConf then conf
    else if cmd = reqWr then ofWr args
    else if cmd = reqRd then ofRd args
    else reject
  | [] => reject

def of (g : Geometry) (line : Str) : Request g := ofFields (split (strip line))

end Request

namespace Disk

def respond (s : Disk g) : Request g → Except Exn (List Str × Disk g)
  | .conf => .ok ([ackOkay, le32 g.blockNum ++ le32 g.blockLen], s)
  | .wr a x => .ok ([if (s.write a x).1 = g.blockLen then ackOkay else ackFail], (s.write a x).2)
  | .rd a => .ok ([ackOkay, s.store a], s)
  | .reject => .ok ([ackFail], s)
  | .raise e => .error e

end Disk

/-- A server that has no image, only the blocks. -/
def blockServer (g : Geometry) : Server Exn (Disk g) := fun s line => do
  let (ack, s) ← s.respond (.of g (line ++ [eol]))
  return (ackString ack ++ [eol], s)

/-! ## One line -/

/-- The same acknowledgement, and the disk is held. -/
abbrev Acknowledged (r : List Str × DiskState) (r' : List Str × Disk g) : Prop :=
  r.1 = r'.1 ∧ r'.2.Held r.2

namespace Disk

variable {s : Disk g} {d : DiskState}

theorem respond_forBlock {a : ℤ} (ha : a < g.blockNum)
    {r : Except Exn (List Str × DiskState)} {request : Addr g → Request g}
    (hneg : a < 0 → r = .error .osError)
    (hvalid : ∀ b : Addr g, (b.1.toNat : ℤ) = a → Alike Acknowledged r (s.respond (request b))) :
    Alike Acknowledged r (s.respond (Request.forBlock a request)) := by
  unfold Request.forBlock
  by_cases h0 : 0 ≤ a
  · have hlt := g.blockNum_lt
    have hnat : (UInt32.ofNat a.toNat).toNat = a.toNat :=
      UInt32.toNat_ofNat_of_lt' (by simp only [UInt32.size]; omega)
    rw [dif_pos ⟨h0, ha⟩]
    refine hvalid _ ?_
    show ((UInt32.ofNat a.toNat).toNat : ℤ) = a
    omega
  · rw [dif_neg (by simp [h0]), if_pos (by omega), hneg (by omega)]
    exact .error _

theorem Held.wr_request (h : s.Held d) (args : List Str) :
    Alike Acknowledged (CcKernel.wr g (reqWr :: args) d) (s.respond (Request.ofWr args)) := by
  rcases args with _ | ⟨ah, _ | ⟨dh, rest⟩⟩
  · exact .error _
  · rw [Request.ofWr]
    rcases ha : addressOf ah with e | a
    · rw [wr_address_error ha]
      exact .error e
    · rw [wr_no_data ha]
      exact .error _
  · rw [Request.ofWr]
    rcases ha : addressOf ah with e | a
    · rw [wr_address_error ha]
      exact .error e
    rcases hd : unhexlify dh with e | x
    · rw [wr_data_error ha hd]
      exact .error e
    rw [wr_eq ha hd]
    by_cases hx : x.length = g.blockLen
    · by_cases hlo : (g.blockNum : ℤ) ≤ a
      · rw [if_pos (Or.inl hlo)]
        simp only [dif_pos hx, Request.forBlock]
        rw [dif_neg (by omega), if_neg (by omega)]
        exact .ok ⟨rfl, h⟩
      · rw [if_neg (by simp [hlo, hx])]
        simp only [dif_pos hx]
        refine respond_forBlock (by omega) (fun hneg => if_pos hneg) fun b hb => ?_
        obtain ⟨hcount, hheld⟩ := h.write b ⟨x, hx⟩
        rw [if_neg (by omega), show a.toNat = b.1.toNat by omega, hcount]
        exact .ok ⟨rfl, hheld⟩
    · rw [if_pos (Or.inr hx)]
      simp only [dif_neg hx]
      exact .ok ⟨rfl, h⟩

theorem Held.rd_request (h : s.Held d) (args : List Str) :
    Alike Acknowledged (CcKernel.rd g (reqRd :: args) d) (s.respond (Request.ofRd args)) := by
  rcases args with _ | ⟨ah, rest⟩
  · exact .error _
  rw [Request.ofRd]
  rcases ha : addressOf ah with e | a
  · rw [rd_address_error ha]
    exact .error e
  rw [rd_eq ha]
  by_cases hlo : (g.blockNum : ℤ) ≤ a
  · rw [if_pos hlo]
    simp only [Request.forBlock]
    rw [dif_neg (by omega), if_neg (by omega)]
    exact .ok ⟨rfl, h⟩
  · rw [if_neg hlo]
    refine respond_forBlock (by omega) (fun hneg => if_pos hneg) fun b hb => ?_
    have hblock := h.block b
    rw [if_neg (by omega), show a.toNat = b.1.toNat by omega, hblock,
      if_neg (by simp [(s.store b).2])]
    exact .ok ⟨rfl, h⟩

theorem Held.acknowledge (h : s.Held d) (req : List Str) :
    Alike Acknowledged (CcKernel.acknowledge g req d) (s.respond (Request.ofFields req)) := by
  rcases req with _ | ⟨cmd, args⟩
  · exact .ok ⟨rfl, h⟩
  rw [Request.ofFields]
  by_cases hconf : cmd = reqConf
  · rw [hconf, if_pos rfl, acknowledge_conf, conf_eq]
    exact .ok ⟨rfl, h⟩
  by_cases hwr : cmd = reqWr
  · rw [hwr, if_neg (by decide), if_pos rfl, acknowledge_wr]
    exact h.wr_request args
  by_cases hrd : cmd = reqRd
  · rw [hrd, if_neg (by decide), if_neg (by decide), if_pos rfl, acknowledge_rd]
    exact h.rd_request args
  rw [if_neg hconf, if_neg hwr, if_neg hrd, acknowledge_other (by simp [hconf, hwr, hrd])]
  exact .ok ⟨rfl, h⟩

end Disk

/-- The two servers answer every line alike. -/
theorem mirrors_blockServer (g : Geometry) :
    Mirrors (diskServer g) (blockServer g) fun d s => s.Held d := by
  intro d s line h
  have hack := h.acknowledge (split (strip (line ++ [eol])))
  have hserver : diskServer g d line = loopBody g d (line ++ [eol]) := rfl
  unfold Server.answer
  rw [hserver, blockServer, Request.of]
  rcases hr : acknowledge g (split (strip (line ++ [eol]))) d with e | ⟨ack, d'⟩
  · rw [hr] at hack
    rw [loopBody_error hr]
    cases hs : s.respond (.ofFields (split (strip (line ++ [eol])))) with
    | error e' =>
      rw [hs] at hack
      cases hack
      exact ⟨rfl, .error e⟩
    | ok r =>
      rw [hs] at hack
      cases hack
  · rw [hr] at hack
    rw [loopBody_ok hr]
    cases hs : s.respond (.ofFields (split (strip (line ++ [eol])))) with
    | error e' =>
      rw [hs] at hack
      cases hack
    | ok r =>
      rw [hs] at hack
      cases hack with
      | ok hr' =>
        obtain ⟨rfl, hheld⟩ := hr'
        exact ⟨rfl, .ok hheld⟩

/-! ## Every program -/

/-- The blocks are all there is to an image. -/
theorem DiskImage.store_injective :
    Function.Injective (DiskImage.store : DiskImage g → Store g) := by
  intro im im' h
  suffices hfile : im.file = im'.file by
    obtain ⟨f, hf⟩ := im
    obtain ⟨f', hf'⟩ := im'
    obtain rfl : f = f' := hfile
    rfl
  have hL := g.blockLen_pos
  have hnum := g.blockNum_lt
  apply List.ext_getElem?
  intro i
  by_cases hi : i < g.blockNum * g.blockLen
  · have ha : i / g.blockLen < g.blockNum := Nat.div_lt_of_lt_mul (by rwa [Nat.mul_comm])
    have hnat : (UInt32.ofNat (i / g.blockLen)).toNat = i / g.blockLen :=
      UInt32.toNat_ofNat_of_lt' (by simp only [UInt32.size]; omega)
    set a : Addr g := ⟨UInt32.ofNat (i / g.blockLen), by rwa [hnat]⟩ with ha'
    have hblock : block g.blockLen im.file a.1.toNat = block g.blockLen im'.file a.1.toNat :=
      congrArg Subtype.val (congrFun h a)
    have hbyte := congrArg (fun x => x[i % g.blockLen]?) hblock
    simp only [getElem?_block, if_pos (Nat.mod_lt i hL)] at hbyte
    rwa [ha', hnat, Nat.mul_comm, Nat.div_add_mod] at hbyte
  · rw [List.getElem?_eq_none (by rw [im.length_eq]; omega),
      List.getElem?_eq_none (by rw [im'.length_eq]; omega)]

theorem Disk.Held.unique {s : Disk g} {d d' : DiskState} (h : s.Held d) (h' : s.Held d') :
    d = d' := by
  obtain ⟨im, rfl, hstore⟩ := h
  obtain ⟨im', rfl, hstore'⟩ := h'
  rw [DiskImage.store_injective (hstore.trans hstore'.symm)]

/-- **The server is an array of blocks to every program**, also to one that does
    not keep to the driver's lines: in every interleaving the two servers have
    received and sent the same bytes and are ended by the same exceptions. -/
theorem diskServer_blocks (im : DiskImage g) (counts : List ℕ) {α : Type} (p q : Prog α) (n : ℕ)
    (u d : List UInt8) (t : Except Exn DiskState) :
    Steps (Step (diskServer g)) n ⟨p, [], [], .ok ⟨im.file, counts⟩⟩ ⟨q, u, d, t⟩ ↔
      ∃ t', Steps (Step (blockServer g)) n ⟨p, [], [], .ok ⟨im.store, counts⟩⟩ ⟨q, u, d, t'⟩ ∧
        Alike (fun d s => s.Held d) t t' := by
  have hstart : Alike (fun d s => Disk.Held s d) (.ok ⟨im.file, counts⟩ : Except Exn DiskState)
      (.ok ⟨im.store, counts⟩) := .ok ⟨im, rfl, rfl⟩
  have hmirrors := mirrors_blockServer g
  constructor
  · intro hs
    exact hmirrors.steps hs hstart
  · rintro ⟨t', hs, ha⟩
    obtain ⟨t'', hs', ha'⟩ := hmirrors.symm.steps hs hstart.symm
    suffices htt : t = t'' by
      rw [htt]
      exact hs'
    cases ha with
    | error e =>
      cases ha'
      rfl
    | ok h =>
      cases ha' with
      | ok h' => rw [h.unique h']

/-! ## Sequences of lines -/

/-- The server after a line that it survives. -/
def nextState (g : Geometry) (d : DiskState) (line : Str) : Option DiskState :=
  (diskServer g d line).toOption.map Prod.snd

/-- The request of a line, as `readline` returns it. -/
def requestOf (g : Geometry) (line : Str) : Request g := .of g (line ++ [eol])

namespace Disk

variable {s : Disk g} {d d' : DiskState} {line : Str}

/-- A line that the server survives. -/
theorem Held.nextState (h : s.Held d) (hd : nextState g d line = some d') :
    ∃ ack s', s.respond (requestOf g line) = .ok (ack, s') ∧ s'.Held d' ∧
      diskServer g d line = .ok (ackString ack ++ [eol], d') := by
  obtain ⟨hreply, hstate⟩ := mirrors_blockServer g d s line h
  unfold CcKernel.nextState at hd
  rcases hserver : diskServer g d line with e | ⟨reply, d₁⟩
  · rw [hserver] at hd
    cases hd
  rw [hserver] at hd
  obtain rfl : d₁ = d' := Option.some.inj hd
  rw [Server.answer_ok hserver] at hreply hstate
  have hblocks : blockServer g s line =
      (s.respond (requestOf g line)).bind fun r => .ok (ackString r.1 ++ [eol], r.2) := rfl
  rcases hr : s.respond (requestOf g line) with e | ⟨ack, s'⟩
  · rw [hr] at hblocks
    rw [Server.answer_error hblocks] at hstate
    cases hstate
  · rw [hr] at hblocks
    rw [Server.answer_ok hblocks] at hreply hstate
    cases hstate with
    | ok hheld => exact ⟨ack, s', rfl, hheld, by rw [show reply = _ from hreply]⟩

/-- A line that the disk answers. -/
theorem Held.reply (h : s.Held d) {ack : List Str} {s' : Disk g}
    (hr : s.respond (requestOf g line) = .ok (ack, s')) :
    ∃ d', diskServer g d line = .ok (ackString ack ++ [eol], d') ∧ s'.Held d' := by
  obtain ⟨hreply, hstate⟩ := mirrors_blockServer g d s line h
  have hblocks : blockServer g s line =
      (s.respond (requestOf g line)).bind fun r => .ok (ackString r.1 ++ [eol], r.2) := rfl
  rw [hr] at hblocks
  rw [Server.answer_ok hblocks] at hreply hstate
  rcases hserver : diskServer g d line with e | ⟨reply, d'⟩
  · rw [Server.answer_error hserver] at hstate
    cases hstate
  · rw [Server.answer_ok hserver] at hreply hstate
    cases hstate with
    | ok hheld => exact ⟨d', by rw [show reply = _ from hreply], hheld⟩

/-- Only a write changes a block, and each byte it changes comes from its data. -/
theorem respond_store {ack : List Str} {s' : Disk g} {r : Request g}
    (h : s.respond r = .ok (ack, s')) (a : Addr g) (i : ℕ) :
    (s'.store a).1[i]? = (s.store a).1[i]? ∨
      ∃ x, r = .wr a x ∧ (s'.store a).1[i]? = x.1[i]? := by
  cases r with
  | wr b x =>
    simp only [respond, Except.ok.injEq, Prod.mk.injEq] at h
    obtain ⟨-, rfl⟩ := h
    by_cases hab : a = b
    · subst hab
      simp only [write, Function.update_self, overwrite]
      set n := min (s.counts.headD g.blockLen) g.blockLen with hn
      have hlen : (x.1.take n).length = n := by rw [List.length_take, x.2]; omega
      by_cases hi : i < n
      · refine Or.inr ⟨x, rfl, ?_⟩
        rw [List.getElem?_append_left (by omega), List.getElem?_take_of_lt hi]
      · refine Or.inl ?_
        rw [List.getElem?_append_right (by omega), List.getElem?_drop, hlen]
        congr 1
        omega
    · refine Or.inl ?_
      simp only [write, Function.update_of_ne hab]
  | conf | rd | reject =>
    simp only [respond, Except.ok.injEq, Prod.mk.injEq] at h
    obtain ⟨-, rfl⟩ := h
    exact Or.inl rfl
  | raise e => cases h

/-- Lines that the server survives: every byte of a block is the one before them,
    or the one that a write to this block has in this place. -/
theorem Held.lines (h : s.Held d) {lines : List Str}
    (hr : run (CcKernel.nextState g) d lines = some d') :
    ∃ s' : Disk g, s'.Held d' ∧ ∀ (a : Addr g) (i : ℕ),
      (s'.store a).1[i]? = (s.store a).1[i]? ∨ ∃ line ∈ lines, ∃ x,
        requestOf g line = .wr a x ∧ (s'.store a).1[i]? = x.1[i]? := by
  induction lines generalizing s d with
  | nil =>
    obtain rfl : d = d' := Option.some.inj hr
    exact ⟨s, h, fun a i => Or.inl rfl⟩
  | cons line lines ih =>
    obtain ⟨d₁, hd₁, hrest⟩ := Option.bind_eq_some_iff.1 hr
    obtain ⟨ack, s₁, hresp, hheld₁, -⟩ := h.nextState hd₁
    obtain ⟨s', hheld', hbytes⟩ := ih hheld₁ hrest
    refine ⟨s', hheld', fun a i => ?_⟩
    rcases hbytes a i with hsame | ⟨l, hl, x, hx, hbyte⟩
    · rw [hsame]
      rcases respond_store hresp a i with hstart | ⟨x, hx, hbyte⟩
      · exact Or.inl hstart
      · exact Or.inr ⟨line, List.mem_cons_self, x, hx, hbyte⟩
    · exact Or.inr ⟨l, List.mem_cons_of_mem _ hl, x, hx, hbyte⟩

end Disk

/-- **Nothing gets into the image but the data of accepted writes**: after any
    lines the image has its length, and every byte of a block is the one at the
    start or the one that a write to this block has in this place. -/
theorem disk_integrity (im : DiskImage g) (counts : List ℕ) {lines : List Str} {d : DiskState}
    (hr : run (nextState g) ⟨im.file, counts⟩ lines = some d) :
    d.file.length = g.blockNum * g.blockLen ∧ ∀ (a : Addr g) (i : ℕ),
      (block g.blockLen d.file a.1.toNat)[i]? = (im.store a).1[i]? ∨
        ∃ line ∈ lines, ∃ x, requestOf g line = .wr a x ∧
          (block g.blockLen d.file a.1.toNat)[i]? = x.1[i]? := by
  have hheld : Disk.Held ⟨im.store, counts⟩ ⟨im.file, counts⟩ := ⟨im, rfl, rfl⟩
  obtain ⟨s', hheld', hbytes⟩ := hheld.lines hr
  constructor
  · obtain ⟨im', rfl, -⟩ := hheld'
    exact im'.length_eq
  · intro a i
    rw [hheld'.block a]
    exact hbytes a i

/-- Write `05 06` to block 1, something else, and `07 08` to block 0. -/
def threeLines : List Str :=
  [wrLine 1 [5, 6], [chr '?'], wrLine 0 [7, 8]]

theorem disk_integrity_three : ∃ d,
    run (nextState smallDisk) ⟨fourBytes.file, [1]⟩ threeLines = some d ∧ d.file.length = 4 ∧
    ∀ (a : Addr smallDisk) (i : ℕ),
      (block 2 d.file a.1.toNat)[i]? = (fourBytes.store a).1[i]? ∨
        ∃ line ∈ threeLines, ∃ x, requestOf smallDisk line = .wr a x ∧
          (block 2 d.file a.1.toNat)[i]? = x.1[i]? := by
  have hr : run (nextState smallDisk) ⟨fourBytes.file, [1]⟩ threeLines =
      some ⟨[7, 8, 5, 4], []⟩ := by decide +kernel
  exact ⟨_, hr, disk_integrity fourBytes [1] hr⟩

end CcKernel
