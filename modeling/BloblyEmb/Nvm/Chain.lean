import BloblyEmb.Nvm.Record

/-!
# Chained values

A value of more than 20 bytes lies in consecutive slots. The validator of a mount follows a run of
parts slot by slot and says when a run is complete; it completes exactly on the runs that are a
chain, and a chain of the journal is one.
-/
namespace BloblyEmb.Nvm

open Boot (crc32 crc32Update)

/-- The validator of a run; `start` and the offsets it is fed with count records. -/
structure ChainScan where
  active : Bool := false
  id : UInt16 := 0
  seq : UInt32 := 0
  next : ℕ := 0
  start : ℕ := 0
  total : ℕ := 0
  expected : ℕ := 0
  seen : ℕ := 0
  crc : UInt32 := 0

def ChainScan.broken (cs : ChainScan) : Bool × ChainScan := (false, { cs with active := false })

/-- A part opens a run or continues the one that is under way. -/
def chainOpen (cs : ChainScan) (blk lenf : UInt16) (seq : UInt32) (off : ℕ) (rec : Ptr) :
    Option ChainScan :=
  let idx := partIdx lenf
  if idx = 0 then
    let total := (rd16 rec 8).toNat
    if plen lenf < 3 then none
    else if total ≤ dataMax ∨ chainDataMax < total then none
    else some
      { active := true
        id := blk
        seq := seq
        next := 1
        start := off
        total := total
        expected := chainParts total
        seen := 0
        crc := 0xFFFFFFFF }
  else if ¬cs.active ∨ blk ≠ cs.id ∨ seq ≠ cs.seq ∨ idx ≠ cs.next ∨ off ≠ cs.start + idx then none
  else some { cs with next := idx + 1 }

/-- Where the data of part `idx` begins in its payload. -/
def partPrefix (idx : ℕ) : ℕ := if idx = 0 then 2 else 0

/-- The data of a part goes into the CRC; the last part ends with the CRC of the whole. -/
def chainData (cs : ChainScan) (idx p : ℕ) (rec : Ptr) : Bool × ChainScan :=
  let avail := p - partPrefix idx
  let remaining := cs.total - cs.seen
  if idx + 1 = cs.expected then
    if avail < 4 ∨ avail - 4 ≠ remaining then cs.broken
    else
      let crc := crc32Update cs.crc (rec.slice (8 + partPrefix idx) (avail - 4))
      let seen := cs.seen + (avail - 4)
      if crc ^^^ 0xFFFFFFFF ≠ rd32 rec (8 + partPrefix idx + (avail - 4)) ∨ seen ≠ cs.total then
        cs.broken
      else (true, { cs with crc := crc, seen := seen })
  else if remaining < avail then cs.broken
  else (false, { cs with
    crc := crc32Update cs.crc (rec.slice (8 + partPrefix idx) avail)
    seen := cs.seen + avail })

/-- `chain_step`: the validator is fed one part, and says whether the run is complete. -/
def chainStep (cs : ChainScan) (blk lenf : UInt16) (seq : UInt32) (off : ℕ) (rec : Ptr) :
    Bool × ChainScan :=
  if plen lenf = 0 ∨ dataMax < plen lenf ∨ blk = markerBlock ∨ blk = idReserved then cs.broken
  else
    match chainOpen cs blk lenf seq off rec with
    | none => cs.broken
    | some cs => chainData cs (partIdx lenf) (plen lenf) rec

/-! ## Chains -/

/-- Slot `start + j` holds part `j` of block `id` with sequence number `seq`, and `payload`. -/
structure PartAt (slot : ℕ → Ptr) (start : ℕ) (id : UInt16) (seq : UInt32) (j : ℕ)
    (payload : List UInt8) : Prop where
  parse : ∃ lenf, parseRecord (slot (start + j)) = some (id, lenf, seq) ∧ isPart lenf = true ∧
    partIdx lenf = j ∧ plen lenf = payload.length
  bytes : (slot (start + j)).slice 8 payload.length = payload

/-- The two bytes of a length. -/
def lengthBytes (total : ℕ) : List UInt8 := [UInt8.ofNat total, UInt8.ofNat (total / 256)]

/-- The four bytes of a CRC. -/
def crcBytes (crc : UInt32) : List UInt8 :=
  [crc.toUInt8, (crc >>> 8).toUInt8, (crc >>> 16).toUInt8, (crc >>> 24).toUInt8]

/-- What stands in front of the data of part `j`. -/
def partHead (total j : ℕ) : List UInt8 := if j = 0 then lengthBytes total else []

/-- The payload of part `j`: the total in front of the first, the CRC of the whole behind the last. -/
def partPayload (total : ℕ) (parts : List (List UInt8)) (j : ℕ) : List UInt8 :=
  partHead total j ++ parts.getD j [] ++
    if j + 1 = parts.length then crcBytes (crc32 parts.flatten) else []

/-- A complete chain from slot `start` on: consecutive slots hold its parts in order, under one block
and one sequence number, whose data has the length that the first part tells and the CRC that the
last part tells. -/
structure IsChain (slot : ℕ → Ptr) (start : ℕ) (id : UInt16) (seq : UInt32) (total : ℕ)
    (parts : List (List UInt8)) : Prop where
  block : id ≠ markerBlock ∧ id ≠ idReserved
  range : dataMax < total ∧ total ≤ chainDataMax
  count : parts.length = chainParts total
  length : parts.flatten.length = total
  size : ∀ j < parts.length, 1 ≤ (partPayload total parts j).length ∧
    (partPayload total parts j).length ≤ dataMax
  first : 3 ≤ (partPayload total parts 0).length
  part : ∀ j < parts.length, PartAt slot start id seq j (partPayload total parts j)

theorem chainParts_bounds (total : ℕ) :
    total + 6 ≤ 20 * chainParts total ∧ 20 * chainParts total ≤ total + 25 := by
  simp only [chainParts, dataMax]
  omega

theorem two_le_chainParts {total : ℕ} (h : dataMax < total) : 2 ≤ chainParts total := by
  simp only [chainParts, dataMax] at *
  omega

/-! ## Bytes of a slot -/

theorem slice_add (p : Ptr) (off m n : ℕ) :
    p.slice off (m + n) = p.slice off m ++ p.slice (off + m) n := by
  simp [Ptr.slice, List.range_add, Nat.add_assoc, Function.comp_def]

theorem slice_append {p : Ptr} {off : ℕ} {xs ys : List UInt8} :
    p.slice off (xs ++ ys).length = xs ++ ys ↔
      p.slice off xs.length = xs ∧ p.slice (off + xs.length) ys.length = ys := by
  rw [List.length_append, slice_add]
  constructor
  · intro h
    exact List.append_inj h (Ptr.length_slice _ _ _)
  · rintro ⟨h, h'⟩
    rw [h, h']

theorem slice_crcBytes {p : Ptr} {off : ℕ} {crc : UInt32} :
    p.slice off 4 = crcBytes crc ↔ rd32 p off = crc := by
  rw [rd32_eq_iff]
  simp [Ptr.slice, crcBytes, List.range_succ]

theorem half_bytes (a b : UInt8) :
    (a.toUInt16 ||| (b.toUInt16 <<< 8)).toNat = a.toNat + 256 * b.toNat := by
  have hb := b.toNat_lt
  have hshift : (b.toUInt16 <<< 8).toNat = b.toNat <<< 8 := by
    have hsmall : b.toNat * 256 < 65536 := by omega
    simp [UInt16.toNat_shiftLeft, Nat.shiftLeft_eq, Nat.mod_eq_of_lt hsmall]
  rw [UInt16.toNat_or, hshift, UInt8.toNat_toUInt16, Nat.or_comm,
    ← Nat.shiftLeft_add_eq_or_of_lt a.toNat_lt, Nat.shiftLeft_eq]
  omega

theorem slice_lengthBytes {p : Ptr} {off total : ℕ} (h : total < 65536) :
    p.slice off 2 = lengthBytes total ↔ (rd16 p off).toNat = total := by
  rw [rd16, half_bytes]
  have h0 := (p off).toNat_lt
  have h1 := (p (off + 1)).toNat_lt
  simp only [Ptr.slice, lengthBytes, List.range_succ, List.range_zero, List.nil_append,
    List.cons_append, List.map_cons, List.map_nil, List.cons.injEq, and_true, ← UInt8.toNat_inj,
    UInt8.toNat_ofNat', Nat.add_zero]
  omega

theorem length_partHead (total j : ℕ) : (partHead total j).length = partPrefix j := by
  unfold partHead partPrefix
  split <;> rfl

/-- The payload of a slot whose data begins behind the head. -/
theorem payload_split {p : Ptr} {total j n : ℕ} (htotal : total < 65536) (hn : partPrefix j ≤ n)
    (hhead : j = 0 → (rd16 p 8).toNat = total) :
    p.slice 8 n = partHead total j ++ p.slice (8 + partPrefix j) (n - partPrefix j) := by
  have hslice : p.slice 8 (partPrefix j) = partHead total j := by
    by_cases hj : j = 0
    · subst hj
      exact (slice_lengthBytes htotal).mpr (hhead rfl)
    · simp [partPrefix, partHead, hj, Ptr.slice]
  rw [← hslice, ← slice_add]
  congr 1
  omega

/-! ## The validator accepts chains only -/

/-- The parts that a validator has followed, their data being `parts`. -/
structure Followed (slot : ℕ → Ptr) (cs : ChainScan) (parts : List (List UInt8)) : Prop where
  block : cs.id ≠ markerBlock ∧ cs.id ≠ idReserved
  range : dataMax < cs.total ∧ cs.total ≤ chainDataMax
  expected : cs.expected = chainParts cs.total
  short : parts.length < cs.expected
  seen : cs.seen = parts.flatten.length
  room : cs.seen ≤ cs.total
  crc : cs.crc = crc32Update 0xFFFFFFFF parts.flatten
  size : ∀ j < parts.length, 1 ≤ (partHead cs.total j ++ parts.getD j []).length ∧
    (partHead cs.total j ++ parts.getD j []).length ≤ dataMax
  first : parts ≠ [] → 3 ≤ (partHead cs.total 0 ++ parts.getD 0 []).length
  part : ∀ j < parts.length, PartAt slot cs.start cs.id cs.seq j
    (partHead cs.total j ++ parts.getD j [])

/-- What a scan knows of the validator. -/
def ScanInv (slot : ℕ → Ptr) (cs : ChainScan) : Prop :=
  cs.active = true → ∃ parts, Followed slot cs parts ∧ parts.length = cs.next

theorem scanInv_broken (slot : ℕ → Ptr) (cs : ChainScan) : ScanInv slot cs.broken.2 := by
  intro h
  simp [ChainScan.broken] at h

section Step

variable {slot : ℕ → Ptr} {cs cs' : ChainScan} {blk lenf : UInt16} {seq : UInt32} {m : ℕ}

/-- An opened part follows on. -/
theorem chainOpen_spec (h : ScanInv slot cs) (hblk : blk ≠ markerBlock ∧ blk ≠ idReserved)
    (hopen : chainOpen cs blk lenf seq m (slot m) = some cs') :
    ∃ parts, Followed slot cs' parts ∧ parts.length = partIdx lenf ∧ cs'.next = partIdx lenf + 1 ∧
      cs'.start + partIdx lenf = m ∧ cs'.id = blk ∧ cs'.seq = seq ∧
        (partIdx lenf = 0 → (rd16 (slot m) 8).toNat = cs'.total ∧ 3 ≤ plen lenf) := by
  by_cases hidx : partIdx lenf = 0
  · simp only [chainOpen, hidx, if_true] at hopen
    by_cases hshort : plen lenf < 3
    · simp [hshort] at hopen
    · by_cases hrange : (rd16 (slot m) 8).toNat ≤ dataMax ∨ chainDataMax < (rd16 (slot m) 8).toNat
      · simp [hshort, hrange] at hopen
      · simp only [if_neg hshort, if_neg hrange, Option.some.injEq] at hopen
        have htotal : dataMax < (rd16 (slot m) 8).toNat := by omega
        have hparts := two_le_chainParts htotal
        subst hopen
        refine ⟨[], ⟨hblk, ⟨htotal, by dsimp only; omega⟩, rfl, by dsimp only [List.length_nil]; omega,
          rfl, Nat.zero_le _, rfl, fun j hj => absurd hj (Nat.not_lt_zero j), fun h => absurd rfl h,
          fun j hj => absurd hj (Nat.not_lt_zero j)⟩, hidx.symm, by rw [hidx], by rw [hidx]; rfl, rfl,
          rfl, fun _ => ⟨rfl, by omega⟩⟩
  · simp only [chainOpen, hidx, if_false] at hopen
    by_cases hbad : ¬cs.active = true ∨ blk ≠ cs.id ∨ seq ≠ cs.seq ∨ partIdx lenf ≠ cs.next ∨
        m ≠ cs.start + partIdx lenf
    · rw [if_pos hbad] at hopen
      cases hopen
    · simp only [hbad, if_false, Option.some.injEq] at hopen
      push Not at hbad
      obtain ⟨hactive, hid, hseq, hnext, hoff⟩ := hbad
      obtain ⟨parts, hf, hlen⟩ := h hactive
      subst hopen
      exact ⟨parts, ⟨hf.block, hf.range, hf.expected, hf.short, hf.seen, hf.room, hf.crc, hf.size,
        hf.first, hf.part⟩, by omega, rfl, hoff.symm, hid.symm, hseq.symm, fun h => absurd h hidx⟩

/-- The data of a part that is not the last. -/
theorem Followed.grow {parts : List (List UInt8)} {idx : ℕ} (h : Followed slot cs parts)
    (hidx : parts.length = idx) (hstart : cs.start + idx = m)
    (hparse : parseRecord (slot m) = some (cs.id, lenf, cs.seq)) (hpart : isPart lenf = true)
    (hfield : partIdx lenf = idx) (hlen : 1 ≤ plen lenf ∧ plen lenf ≤ dataMax)
    (hhead : idx = 0 → (rd16 (slot m) 8).toNat = cs.total ∧ 3 ≤ plen lenf)
    (hlast : idx + 1 ≠ cs.expected) (hroom : plen lenf - partPrefix idx ≤ cs.total - cs.seen) :
    Followed slot
      { cs with
        crc := crc32Update cs.crc
          ((slot m).slice (8 + partPrefix idx) (plen lenf - partPrefix idx))
        seen := cs.seen + (plen lenf - partPrefix idx) }
      (parts ++ [(slot m).slice (8 + partPrefix idx) (plen lenf - partPrefix idx)]) := by
  have htotal := h.range
  have hpre : partPrefix idx ≤ plen lenf := by
    unfold partPrefix
    split
    · have := hhead ‹_›
      omega
    · omega
  have hpayload : (slot m).slice 8 (plen lenf) = partHead cs.total idx ++
      (slot m).slice (8 + partPrefix idx) (plen lenf - partPrefix idx) := payload_split
    (by simp only [chainDataMax] at htotal; omega) hpre fun h0 => (hhead h0).1
  have hlenp := congrArg List.length hpayload
  rw [Ptr.length_slice] at hlenp
  have hlow : ∀ j < parts.length,
      (parts ++ [(slot m).slice (8 + partPrefix idx) (plen lenf - partPrefix idx)]).getD j [] =
        parts.getD j [] := fun j hj => List.getD_append _ _ _ _ hj
  have hnew : (parts ++ [(slot m).slice (8 + partPrefix idx) (plen lenf - partPrefix idx)]).getD idx
      [] = (slot m).slice (8 + partPrefix idx) (plen lenf - partPrefix idx) := by
    rw [List.getD_append_right _ _ _ _ (Nat.le_of_eq hidx), hidx, Nat.sub_self]
    rfl
  refine ⟨h.block, h.range, h.expected, ?_, ?_, ?_, ?_, ?_, ?_, ?_⟩
  · have := h.short
    simp only [List.length_append, List.length_cons, List.length_nil]
    omega
  · simp [h.seen, Ptr.length_slice]
  · have := h.room
    dsimp only
    omega
  · simp [h.crc, Boot.crc32Update_append]
  · intro j hj
    rw [List.length_append, List.length_singleton] at hj
    by_cases hlt : j < parts.length
    · rw [hlow j hlt]
      exact h.size j hlt
    · obtain rfl : j = idx := by omega
      rw [hnew]
      dsimp only
      omega
  · intro _
    by_cases h0 : idx = 0
    · subst h0
      rw [hnew]
      have := hhead rfl
      dsimp only
      omega
    · rw [hlow 0 (by omega)]
      exact h.first (List.ne_nil_of_length_pos (by omega))
  · intro j hj
    rw [List.length_append, List.length_singleton] at hj
    by_cases hlt : j < parts.length
    · rw [hlow j hlt]
      exact h.part j hlt
    · obtain rfl : j = idx := by omega
      rw [hnew]
      refine ⟨⟨lenf, ?_, hpart, hfield, hlenp⟩, ?_⟩
      · rw [← hstart] at hparse
        exact hparse
      · dsimp only
        rw [← hlenp, hstart, hpayload]

/-- The last part makes a chain. -/
theorem Followed.complete {parts : List (List UInt8)} {idx : ℕ} (h : Followed slot cs parts)
    (hidx : parts.length = idx) (hstart : cs.start + idx = m)
    (hparse : parseRecord (slot m) = some (cs.id, lenf, cs.seq)) (hpart : isPart lenf = true)
    (hfield : partIdx lenf = idx) (hlen : 1 ≤ plen lenf ∧ plen lenf ≤ dataMax)
    (hlast : idx + 1 = cs.expected) (hfour : 4 ≤ plen lenf - partPrefix idx)
    (hrest : plen lenf - partPrefix idx - 4 = cs.total - cs.seen)
    (hcrc : crc32Update cs.crc
      ((slot m).slice (8 + partPrefix idx) (plen lenf - partPrefix idx - 4)) ^^^ 0xFFFFFFFF =
        rd32 (slot m) (8 + partPrefix idx + (plen lenf - partPrefix idx - 4))) :
    IsChain slot cs.start cs.id cs.seq cs.total
      (parts ++ [(slot m).slice (8 + partPrefix idx) (plen lenf - partPrefix idx - 4)]) := by
  have htotal := h.range
  have hroom := h.room
  have hseen := h.seen
  have hparts := two_le_chainParts htotal.1
  have hexp := h.expected
  have h0 : idx ≠ 0 := by omega
  have hpre : partPrefix idx = 0 := if_neg h0
  have hhead : partHead cs.total idx = [] := if_neg h0
  simp only [hpre, Nat.sub_zero, Nat.add_zero] at hrest hcrc hfour ⊢
  let data := (slot m).slice 8 (plen lenf - 4)
  have hdata : data.length = plen lenf - 4 := Ptr.length_slice _ _ _
  have hwhole : crc32 (parts ++ [data]).flatten = rd32 (slot m) (8 + (plen lenf - 4)) := by
    rw [← hcrc, h.crc, ← Boot.crc32Update_append, Boot.crc32_eq_update]
    simp [data]
  have hlow : ∀ j < parts.length,
      partPayload cs.total (parts ++ [data]) j = partHead cs.total j ++ parts.getD j [] := by
    intro j hj
    rw [partPayload, List.getD_append _ _ _ _ hj, if_neg (by simp; omega), List.append_nil]
  have hnew : partPayload cs.total (parts ++ [data]) idx =
      data ++ crcBytes (crc32 (parts ++ [data]).flatten) := by
    rw [partPayload, hhead, List.getD_append_right _ _ _ _ (Nat.le_of_eq hidx), hidx, Nat.sub_self,
      if_pos (by simp [hidx])]
    rfl
  have hlenp : (partPayload cs.total (parts ++ [data]) idx).length = plen lenf := by
    rw [hnew, List.length_append, hdata]
    simp only [crcBytes, List.length_cons, List.length_nil]
    omega
  refine ⟨h.block, h.range, ?_, ?_, ?_, ?_, ?_⟩
  · rw [List.length_append, List.length_singleton]
    omega
  · rw [List.flatten_append, List.length_append, ← hseen]
    simp only [List.flatten_cons, List.flatten_nil, List.append_nil, Ptr.length_slice]
    omega
  · intro j hj
    rw [List.length_append, List.length_singleton] at hj
    by_cases hlt : j < parts.length
    · rw [hlow j hlt]
      exact h.size j hlt
    · obtain rfl : j = idx := by omega
      rw [hlenp]
      exact hlen
  · rw [hlow 0 (by omega)]
    exact h.first (List.ne_nil_of_length_pos (by omega))
  · intro j hj
    rw [List.length_append, List.length_singleton] at hj
    by_cases hlt : j < parts.length
    · rw [hlow j hlt]
      exact h.part j hlt
    · obtain rfl : j = idx := by omega
      refine ⟨⟨lenf, by rw [hstart]; exact hparse, hpart, hfield, hlenp.symm⟩, ?_⟩
      rw [hstart, hnew, slice_append]
      refine ⟨by rw [hdata], ?_⟩
      rw [hdata]
      exact slice_crcBytes.mpr hwhole.symm

/-- One step of the validator: what is under way has been followed, and what completes is a chain
that ends here. -/
theorem chainStep_sound (h : ScanInv slot cs) (hparse : parseRecord (slot m) = some (blk, lenf, seq))
    (hpart : isPart lenf = true) :
    ((chainStep cs blk lenf seq m (slot m)).1 = false →
      ScanInv slot (chainStep cs blk lenf seq m (slot m)).2) ∧
    ((chainStep cs blk lenf seq m (slot m)).1 = true → ∃ parts,
      IsChain slot (chainStep cs blk lenf seq m (slot m)).2.start
        (chainStep cs blk lenf seq m (slot m)).2.id (chainStep cs blk lenf seq m (slot m)).2.seq
          (chainStep cs blk lenf seq m (slot m)).2.total parts ∧
        (chainStep cs blk lenf seq m (slot m)).2.start + parts.length = m + 1) := by
  by_cases hbad : plen lenf = 0 ∨ dataMax < plen lenf ∨ blk = markerBlock ∨ blk = idReserved
  · rw [chainStep, if_pos hbad]
    exact ⟨fun _ => scanInv_broken slot cs, fun h => by cases h⟩
  · rw [chainStep, if_neg hbad]
    push Not at hbad
    obtain ⟨hpos, hmax, hmarker, hreserved⟩ := hbad
    have hmax : plen lenf ≤ dataMax := by omega
    cases hopen : chainOpen cs blk lenf seq m (slot m) with
    | none => exact ⟨fun _ => scanInv_broken slot cs, fun h => by cases h⟩
    | some cs' =>
      obtain ⟨parts, hf, hidx, hnext, hstart, rfl, rfl, hhead⟩ :=
        chainOpen_spec h ⟨hmarker, hreserved⟩ hopen
      dsimp only [chainData]
      by_cases hlast : partIdx lenf + 1 = cs'.expected
      · rw [if_pos hlast]
        by_cases hrest : plen lenf - partPrefix (partIdx lenf) < 4 ∨
            plen lenf - partPrefix (partIdx lenf) - 4 ≠ cs'.total - cs'.seen
        · rw [if_pos hrest]
          exact ⟨fun _ => scanInv_broken slot cs', fun h => by cases h⟩
        · rw [if_neg hrest]
          by_cases hcrc : crc32Update cs'.crc ((slot m).slice (8 + partPrefix (partIdx lenf))
              (plen lenf - partPrefix (partIdx lenf) - 4)) ^^^ 0xFFFFFFFF ≠
                rd32 (slot m) (8 + partPrefix (partIdx lenf) +
                  (plen lenf - partPrefix (partIdx lenf) - 4)) ∨
              cs'.seen + (plen lenf - partPrefix (partIdx lenf) - 4) ≠ cs'.total
          · rw [if_pos hcrc]
            exact ⟨fun _ => scanInv_broken slot cs', fun h => by cases h⟩
          · rw [if_neg hcrc]
            push Not at hcrc
            refine ⟨fun h => (by cases h), fun _ => ⟨_, hf.complete hidx hstart hparse hpart rfl
              ⟨by omega, hmax⟩ hlast (by omega) (by omega) hcrc.1, ?_⟩⟩
            rw [List.length_append, List.length_singleton]
            dsimp only
            omega
      · rw [if_neg hlast]
        by_cases hroom : cs'.total - cs'.seen < plen lenf - partPrefix (partIdx lenf)
        · rw [if_pos hroom]
          exact ⟨fun _ => scanInv_broken slot cs', fun h => by cases h⟩
        · rw [if_neg hroom]
          refine ⟨fun _ _ => ⟨_, hf.grow hidx hstart hparse hpart rfl ⟨by omega, hmax⟩ hhead hlast
            (by omega), ?_⟩, fun h => by cases h⟩
          rw [List.length_append, List.length_singleton]
          dsimp only
          omega

end Step

/-! ## The validator accepts every chain -/

/-- The validator that has followed the first `j` parts of a chain. -/
def followed (start : ℕ) (id : UInt16) (seq : UInt32) (total : ℕ) (parts : List (List UInt8))
    (j : ℕ) : ChainScan where
  active := true
  id := id
  seq := seq
  next := j
  start := start
  total := total
  expected := chainParts total
  seen := (parts.take j).flatten.length
  crc := crc32Update 0xFFFFFFFF (parts.take j).flatten

section Accept

variable {slot : ℕ → Ptr} {start : ℕ} {id : UInt16} {seq : UInt32} {total : ℕ}
  {parts : List (List UInt8)}

theorem flatten_take_succ {j : ℕ} (hj : j < parts.length) :
    (parts.take (j + 1)).flatten = (parts.take j).flatten ++ parts.getD j [] := by
  rw [List.take_add_one, List.flatten_append, List.getElem?_eq_getElem hj,
    List.getD_eq_getElem _ _ hj]
  simp

theorem length_flatten_take {j : ℕ} (hj : j < parts.length) :
    parts.flatten.length = (parts.take j).flatten.length + (parts.getD j []).length +
      (parts.drop (j + 1)).flatten.length := by
  conv_lhs => rw [← List.take_append_drop (j + 1) parts]
  rw [List.flatten_append, List.length_append, flatten_take_succ hj, List.length_append]

/-- Part `j` of a chain, behind the ones before it, takes the validator one part further. -/
theorem IsChain.chainStep (h : IsChain slot start id seq total parts) {j : ℕ}
    (hj : j < parts.length) : ∃ lenf, parseRecord (slot (start + j)) = some (id, lenf, seq) ∧
      isPart lenf = true ∧ ∀ cs : ChainScan, j = 0 ∨ cs = followed start id seq total parts j →
        chainStep cs id lenf seq (start + j) (slot (start + j)) =
          (decide (j + 1 = parts.length), followed start id seq total parts (j + 1)) := by
  obtain ⟨⟨lenf, hparse, hpart, hidx, hplen⟩, hbytes⟩ := h.part j hj
  refine ⟨lenf, hparse, hpart, fun cs hcs => ?_⟩
  have hsize := h.size j hj
  have hrange := h.range
  have hcount := h.count
  have hparts := two_le_chainParts hrange.1
  have htotal : total < 65536 := by simp only [chainDataMax] at hrange; omega
  have hsum := length_flatten_take hj
  rw [h.length] at hsum
  rw [partPayload, List.append_assoc, slice_append, length_partHead] at hbytes
  obtain ⟨hhead, hbody⟩ := hbytes
  rw [slice_append] at hbody
  obtain ⟨hdata, htail⟩ := hbody
  have hlen : plen lenf = partPrefix j + ((parts.getD j []).length +
      if j + 1 = parts.length then 4 else 0) := by
    rw [hplen, partPayload, List.length_append, List.length_append, length_partHead, Nat.add_assoc]
    split <;> rfl
  have hopen : chainOpen cs id lenf seq (start + j) (slot (start + j)) =
      some { followed start id seq total parts j with next := j + 1 } := by
    by_cases h0 : j = 0
    · subst h0
      have htot : (rd16 (slot (start + 0)) 8).toNat = total :=
        (slice_lengthBytes htotal).mp hhead
      have hfirst := h.first
      rw [← hplen] at hfirst
      simp only [chainOpen, hidx, if_true, htot]
      rw [if_neg (by omega), if_neg (by omega)]
      rfl
    · obtain rfl : cs = followed start id seq total parts j := by
        rcases hcs with h' | h'
        · exact absurd h' h0
        · exact h'
      simp only [chainOpen, hidx, h0, if_false]
      rw [if_neg (by simp [followed])]
  rw [Nvm.chainStep, if_neg (by
    have := h.block
    rw [← hplen] at hsize
    rintro (h1 | h1 | h1 | h1)
    · omega
    · omega
    · exact this.1 h1
    · exact this.2 h1), hopen]
  dsimp only
  rw [hidx]
  have havail : plen lenf - partPrefix j = (parts.getD j []).length +
      if j + 1 = parts.length then 4 else 0 := by omega
  have hcrc : crc32Update (crc32Update 0xFFFFFFFF (parts.take j).flatten) (parts.getD j []) =
      crc32Update 0xFFFFFFFF (parts.take (j + 1)).flatten := by
    rw [flatten_take_succ hj, Boot.crc32Update_append]
  have hseen : (parts.take j).flatten.length + (parts.getD j []).length =
      (parts.take (j + 1)).flatten.length := by
    rw [flatten_take_succ hj, List.length_append]
  by_cases hlast : j + 1 = parts.length
  · have hrest : (parts.drop (j + 1)).flatten.length = 0 := by
      rw [List.drop_of_length_le (Nat.le_of_eq hlast.symm)]
      rfl
    have htake : parts.take (j + 1) = parts := List.take_of_length_le (Nat.le_of_eq hlast.symm)
    rw [if_pos hlast] at havail htail
    have htrail : rd32 (slot (start + j)) (8 + partPrefix j + (parts.getD j []).length) =
        crc32 parts.flatten := slice_crcBytes.mp htail
    simp only [chainData, followed, havail, Nat.add_sub_cancel, hdata, htrail, hcrc, hseen, htake]
    rw [if_pos (by omega), if_neg (by omega), if_neg (by
      rw [h.length, Boot.crc32_eq_update]
      simp)]
    simp [hlast]
  · rw [if_neg hlast, Nat.add_zero] at havail
    simp only [chainData, followed, havail, hdata, hcrc, hseen]
    rw [if_neg (by omega), if_neg (by omega)]
    simp [hlast]

end Accept

end BloblyEmb.Nvm
