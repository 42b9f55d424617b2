import BloblyEmb.Nvm.Chain

/-!
# Writing and reading the parts of a value

`append_chain` cuts a value into parts, the first behind its length and the last before the CRC of
the whole, which may have a part of its own; `read_chain` puts them together again up to the
capacity of the buffer, and `emit_entry` copies them slot by slot under a new sequence number.
-/
namespace BloblyEmb.Nvm

open Boot (crc32 crc32Update)

/-- The payload of part `k` and the position after it, `src` being the position in the data. -/
def appendPart (data : List UInt8) (nparts k src : ℕ) : List UInt8 × ℕ :=
  let head := partHead data.length k
  let chunk := (data.drop src).take (dataMax - head.length)
  let src := src + chunk.length
  (head ++ chunk ++ if src = data.length ∧ k + 1 = nparts then crcBytes (crc32 data) else [], src)

/-- The pass of `read_chain` at part `k`, `out` being copied. A part that does not read back as what
was adopted ends it. -/
def readPart (read : ℕ → Option Ptr) (base : ℕ) (id : UInt16) (seq : UInt32) (nparts n : ℕ)
    (out : List UInt8) (k : ℕ) : Option (List UInt8) :=
  if n ≤ out.length then some out
  else do
    let p ← read (base + k)
    let (blk, lenf, seq') ← parseRecord p
    if blk ≠ id ∨ seq' ≠ seq ∨ ¬isPart lenf ∨ partIdx lenf ≠ k then none
    else
      let avail := plen lenf - partPrefix k
      let avail := if k + 1 = nparts then avail - 4 else avail
      some (out ++ (p.slice (8 + partPrefix k) avail).take (n - out.length))

/-- `read_chain`: the first `n` bytes of the chain of `nparts` parts from `base` on. -/
def readChain (read : ℕ → Option Ptr) (base : ℕ) (id : UInt16) (seq : UInt32) (nparts n : ℕ) :
    Option (List UInt8) := do
  let out ← (List.range nparts).foldlM (readPart read base id seq nparts n) []
  if out.length = n then some out else none

/-! ## The parts of a value -/

/-- The position in the data where part `k` begins. -/
def srcAt (len k : ℕ) : ℕ := if k = 0 then 0 else min len (dataMax * k - 2)

/-- The data of part `k`. -/
def chunkAt (data : List UInt8) (k : ℕ) : List UInt8 :=
  (data.drop (srcAt data.length k)).take (dataMax - partPrefix k)

def partsOf (data : List UInt8) : List (List UInt8) :=
  (List.range (chainParts data.length)).map (chunkAt data)

section Parts

variable {data : List UInt8}

theorem length_chunkAt (k : ℕ) : (chunkAt data k).length =
    min (dataMax - partPrefix k) (data.length - srcAt data.length k) := by
  simp [chunkAt]

theorem srcAt_succ (k : ℕ) :
    srcAt data.length (k + 1) = srcAt data.length k + (chunkAt data k).length := by
  rw [length_chunkAt]
  by_cases hk : k = 0
  · subst hk
    simp [srcAt, partPrefix, dataMax]
    omega
  · simp [srcAt, partPrefix, dataMax, hk]
    omega

/-- The parts so far are the data so far. -/
theorem flatten_chunks (n : ℕ) :
    ((List.range n).map (chunkAt data)).flatten = data.take (srcAt data.length n) := by
  induction n with
  | zero => simp [srcAt]
  | succ n ih =>
    rw [List.range_succ, List.map_append, List.flatten_append, ih, srcAt_succ, List.take_add]
    simp [chunkAt]

theorem srcAt_chainParts : srcAt data.length (chainParts data.length) = data.length := by
  have hne : chainParts data.length ≠ 0 := by
    simp only [chainParts, dataMax]
    omega
  rw [srcAt, if_neg hne]
  simp only [chainParts, dataMax]
  omega

theorem flatten_partsOf : (partsOf data).flatten = data := by
  rw [partsOf, flatten_chunks, srcAt_chainParts, List.take_length]

theorem length_partsOf : (partsOf data).length = chainParts data.length := by
  simp [partsOf]

theorem getD_partsOf {k : ℕ} (hk : k < chainParts data.length) :
    (partsOf data).getD k [] = chunkAt data k := by
  rw [List.getD_eq_getElem _ _ (by rw [length_partsOf]; exact hk)]
  simp [partsOf]

/-- What `append_chain` puts into part `k`. -/
theorem appendPart_eq {k : ℕ} (hk : k < chainParts data.length) :
    appendPart data (chainParts data.length) k (srcAt data.length k) =
      (partPayload data.length (partsOf data) k, srcAt data.length (k + 1)) := by
  have hchunk : (data.drop (srcAt data.length k)).take
      (dataMax - (partHead data.length k).length) = chunkAt data k := by
    rw [length_partHead]
    rfl
  simp only [appendPart, hchunk, ← srcAt_succ, partPayload, getD_partsOf hk, length_partsOf,
    flatten_partsOf]
  by_cases hlast : k + 1 = chainParts data.length
  · rw [hlast, srcAt_chainParts, if_pos ⟨rfl, rfl⟩, if_pos rfl]
  · rw [if_neg fun h => hlast h.2, if_neg hlast]

/-- The sizes of the parts of a value that needs a chain: the last holds the CRC and what data is
left, down to none. -/
theorem length_payload {k : ℕ} (hk : k < chainParts data.length) :
    (partPayload data.length (partsOf data) k).length =
      if k + 1 = chainParts data.length then partPrefix k + (data.length - srcAt data.length k) + 4
        else min dataMax (partPrefix k + (data.length - srcAt data.length k)) := by
  rw [partPayload, List.length_append, List.length_append, length_partHead, getD_partsOf hk,
    length_chunkAt, length_partsOf]
  by_cases hlast : k + 1 = chainParts data.length
  · have hend : srcAt data.length (k + 1) = srcAt data.length k + (chunkAt data k).length :=
      srcAt_succ k
    rw [hlast, srcAt_chainParts, length_chunkAt] at hend
    rw [if_pos hlast, if_pos hlast]
    simp only [crcBytes, List.length_cons, List.length_nil]
    omega
  · rw [if_neg hlast, if_neg hlast]
    simp only [List.length_nil, dataMax, partPrefix]
    split <;> omega

theorem size_payload (hlen : dataMax < data.length) {k : ℕ} (hk : k < chainParts data.length) :
    1 ≤ (partPayload data.length (partsOf data) k).length ∧
      (partPayload data.length (partsOf data) k).length ≤ dataMax := by
  rw [length_payload hk]
  have hcount := chainParts_bounds data.length
  simp only [dataMax] at hlen
  by_cases h0 : k = 0
  · subst h0
    rw [if_neg (by omega)]
    simp only [srcAt, partPrefix, dataMax, if_true]
    omega
  · have hpre : partPrefix k = 0 := if_neg h0
    have hsrc : srcAt data.length k = min data.length (20 * k - 2) := if_neg h0
    rw [hpre, hsrc]
    by_cases hlast : k + 1 = chainParts data.length
    · rw [if_pos hlast]
      simp only [dataMax]
      omega
    · rw [if_neg hlast]
      simp only [dataMax]
      omega

/-! ## Chains that are written -/

/-- The same 32 bytes. -/
def SameRecord (p q : Ptr) : Prop := ∀ i < 32, p i = q i

theorem parseRecord_congr {p q : Ptr} (h : SameRecord p q) : parseRecord p = parseRecord q := by
  have h0 : rd16 p 0 = rd16 q 0 := rd16_congr fun i hi => h _ (by omega)
  have h2 : rd16 p 2 = rd16 q 2 := rd16_congr fun i hi => h _ (by omega)
  have h4 : rd32 p 4 = rd32 q 4 := rd32_congr fun i hi => h _ (by omega)
  have h28 : rd32 p 28 = rd32 q 28 := rd32_congr fun i hi => h _ (by omega)
  have hs : p.slice 0 28 = q.slice 0 28 := Ptr.slice_congr fun i _ hi => h i (by omega)
  simp only [parseRecord, h0, h2, h4, h28, hs]

variable {slot : ℕ → Ptr} {start : ℕ} {id : UInt16} {seq seq' : UInt32} {total : ℕ}
  {parts : List (List UInt8)}

/-- A record that encodes the payload of a part is that part. -/
theorem partAt_encode {j : ℕ} {payload : List UInt8} {lenf : UInt16} {d : Ptr}
    (hpart : isPart lenf = true) (hidx : partIdx lenf = j) (hplen : plen lenf = payload.length)
    (hmax : payload.length ≤ dataMax) (hd : d.slice 0 payload.length = payload)
    (hslot : SameRecord (slot (start + j)) (encodeRecord id lenf seq d)) :
    PartAt slot start id seq j payload := by
  have hmax' : plen lenf ≤ 20 := by rw [hplen]; exact hmax
  refine ⟨⟨lenf, ?_, hpart, hidx, hplen⟩, ?_⟩
  · rw [parseRecord_congr hslot]
    exact parseRecord_encode hmax' fun h => by rw [hpart] at h; cases h
  · refine Eq.trans (List.map_congr_left fun i hi => ?_) hd
    have hi' := List.mem_range.mp hi
    rw [hslot _ (by simp only [dataMax] at hmax; omega), encodeRecord_data hmax' (by omega),
      Nat.zero_add]

/-- What `append_chain` writes is a chain of the data. -/
theorem isChain_append (hid : id ≠ markerBlock ∧ id ≠ idReserved)
    (hlen : dataMax < data.length ∧ data.length ≤ chainDataMax)
    (hslot : ∀ k < chainParts data.length, SameRecord (slot (start + k))
      (encodeRecord id (partField k (partPayload data.length (partsOf data) k).length) seq
        (Ptr.of (partPayload data.length (partsOf data) k)))) :
    IsChain slot start id seq data.length (partsOf data) := by
  have hparts := two_le_chainParts hlen.1
  have hcount : chainParts data.length ≤ 32 := by
    simp only [chainParts, dataMax, chainDataMax] at *
    omega
  refine ⟨hid, hlen, length_partsOf, by rw [flatten_partsOf], ?_, ?_, ?_⟩
  · intro k hk
    rw [length_partsOf] at hk
    exact size_payload hlen.1 hk
  · rw [length_payload (by omega)]
    simp only [srcAt, partPrefix, dataMax] at *
    rw [if_neg (by omega)]
    simp only [if_true]
    omega
  · intro k hk
    rw [length_partsOf] at hk
    have hsize := (size_payload hlen.1 hk).2
    obtain ⟨hpart, hidx, hplen⟩ := partField_spec (by omega : k < 32) hsize
    refine partAt_encode hpart hidx hplen hsize ?_ (hslot k hk)
    refine List.ext_getElem (Ptr.length_slice _ _ _) fun i hi hi' => ?_
    simp [Ptr.slice, Ptr.of, hi']

/-- A chain copied slot by slot under a new sequence number is a chain of the same parts. -/
theorem IsChain.copy {slot' : ℕ → Ptr} {start' : ℕ} (h : IsChain slot start id seq total parts)
    (hslot : ∀ k < parts.length, ∃ lenf, parseRecord (slot (start + k)) = some (id, lenf, seq) ∧
      SameRecord (slot' (start' + k)) (encodeRecord id lenf seq' ((slot (start + k)).add 8))) :
    IsChain slot' start' id seq' total parts := by
  refine ⟨h.block, h.range, h.count, h.length, h.size, h.first, fun k hk => ?_⟩
  obtain ⟨lenf, hparse, hsame⟩ := hslot k hk
  obtain ⟨⟨lenf', hparse', hpart, hidx, hplen⟩, hbytes⟩ := h.part k hk
  rw [hparse, Option.some.injEq, Prod.mk.injEq, Prod.mk.injEq] at hparse'
  obtain ⟨-, rfl, -⟩ := hparse'
  refine partAt_encode hpart hidx hplen (h.size k hk).2 ?_ hsame
  rw [← hbytes]
  refine List.ext_getElem (by simp) fun i hi hi' => ?_
  simp [Ptr.slice, Ptr.add]

/-- A chain is read back up to any capacity. -/
theorem IsChain.readChain (h : IsChain slot start id seq total parts) {read : ℕ → Option Ptr}
    (hread : ∀ k < parts.length, ∃ p, read (start + k) = some p ∧ SameRecord p (slot (start + k)))
    {n : ℕ} (hn : n ≤ total) :
    readChain read start id seq parts.length n = some (parts.flatten.take n) := by
  have hrun : ∀ m ≤ parts.length, (List.range m).foldlM (readPart read start id seq parts.length n)
      [] = some ((parts.take m).flatten.take n) := by
    intro m hm
    induction m with
    | zero => simp
    | succ m ih =>
      rw [List.range_succ, List.foldlM_append, ih (by omega)]
      simp only [Option.bind_eq_bind, Option.bind_some, List.foldlM_cons, List.foldlM_nil,
        Option.pure_def, Option.bind_fun_some]
      rw [flatten_take_succ (by omega), List.take_append, readPart]
      by_cases hfull : n ≤ (parts.take m).flatten.length
      · rw [if_pos (by rw [List.length_take]; omega)]
        rw [Nat.sub_eq_zero_of_le hfull, List.take_zero, List.append_nil]
      · have hacc : (parts.take m).flatten.take n = (parts.take m).flatten :=
          List.take_of_length_le (by omega)
        rw [hacc, if_neg hfull]
        obtain ⟨p, hp, hsame⟩ := hread m (by omega)
        obtain ⟨⟨lenf, hparse, hpart, hidx, hplen⟩, hbytes⟩ := h.part m (by omega)
        have hsize := (h.size m (by omega)).2
        rw [partPayload, List.append_assoc, slice_append, length_partHead, slice_append] at hbytes
        have hlen : plen lenf = partPrefix m + ((parts.getD m []).length +
            if m + 1 = parts.length then 4 else 0) := by
          rw [hplen, partPayload, List.length_append, List.length_append, length_partHead,
            Nat.add_assoc]
          split <;> rfl
        have havail : (if m + 1 = parts.length then plen lenf - partPrefix m - 4
            else plen lenf - partPrefix m) = (parts.getD m []).length := by
          by_cases hlast : m + 1 = parts.length
          · rw [if_pos hlast] at hlen ⊢
            omega
          · rw [if_neg hlast] at hlen ⊢
            omega
        have hdata : p.slice (8 + partPrefix m) (parts.getD m []).length = parts.getD m [] := by
          refine Eq.trans (Ptr.slice_congr fun i _ hi => hsame i ?_) hbytes.2.1
          simp only [dataMax] at hsize
          omega
        have hparse' : parseRecord p = some (id, lenf, seq) := (parseRecord_congr hsame).trans hparse
        simp only [hp, hparse', Option.bind_eq_bind, Option.bind_some]
        rw [if_neg (by simp [hpart, hidx]), havail, hdata]
  rw [Nvm.readChain, hrun parts.length (Nat.le_refl _), List.take_length]
  simp [h.length, hn]

end Parts

end BloblyEmb.Nvm
