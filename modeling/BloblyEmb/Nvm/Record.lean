import Mathlib.Data.List.GetD
import BloblyEmb.Boot.Header

/-!
# Records of the persistence journal

A record is one slot of 32 bytes (`nvm/journal.v`): the block, a length field, the sequence number,
up to 20 bytes of data and a CRC. The length field of a part of a chained value carries a flag, the
index of the part and the length of its payload.
-/
namespace BloblyEmb.Nvm

open Boot (crc32 crc32Update)

def dataMax : ℕ := 20

/-- Of a chained value: 32 parts of 20 bytes, less the length and the CRC. -/
def chainDataMax : ℕ := 634

def markerBlock : UInt16 := 0

def idReserved : UInt16 := 0xFFFF

def chainFlag : UInt16 := 0x8000

def partShift : UInt16 := 10

def plenMask : UInt16 := 0x03FF

def seqCeiling : UInt32 := 0xFFFFFF00

/-- The records that a chained value of `total` bytes takes. -/
def chainParts (total : ℕ) : ℕ := (total + 6 + (dataMax - 1)) / dataMax

def recordsFor (len : ℕ) : ℕ := if len ≤ dataMax then 1 else chainParts len

/-- Of a length field: the length of the payload. -/
def plen (lenField : UInt16) : ℕ := (lenField &&& plenMask).toNat

/-- Of a length field: the index of the part. -/
def partIdx (lenField : UInt16) : ℕ := ((lenField >>> partShift) &&& 0x1F).toNat

def isPart (lenField : UInt16) : Bool := lenField &&& chainFlag ≠ 0

/-- The length field of part `k` with a payload of `p` bytes. -/
def partField (k p : ℕ) : UInt16 := chainFlag ||| (UInt16.ofNat k <<< partShift) ||| UInt16.ofNat p

/-- `encode_record_raw`: the length field goes in as it is, and its low bits say how much data does. -/
def encodeRecord (block lenField : UInt16) (seq : UInt32) (data : Ptr) : Ptr :=
  let head := wr32 (wr16 (wr16 (fun _ => 0) 0 block) 2 lenField) 4 seq
  let body : Ptr := fun i => if 8 ≤ i ∧ i < 8 + plen lenField then data (i - 8) else head i
  wr32 body 28 (crc32 (body.slice 0 28))

/-- The block, the length field and the sequence number of a record whose CRC matches and whose
payload fits. -/
def parseRecord (p : Ptr) : Option (UInt16 × UInt16 × UInt32) :=
  let lenf := rd16 p 2
  if isPart lenf ∧ dataMax < plen lenf then none
  else if ¬isPart lenf ∧ dataMax < lenf.toNat then none
  else if crc32 (p.slice 0 28) ≠ rd32 p 28 then none
  else some (rd16 p 0, lenf, rd32 p 4)

/-! ## Length fields -/

theorem partField_spec {k p : ℕ} (hk : k < 32) (hp : p ≤ 20) :
    isPart (partField k p) = true ∧ partIdx (partField k p) = k ∧ plen (partField k p) = p := by
  have h : ∀ k : Fin 32, ∀ p : Fin 21, isPart (partField k p) = true ∧
      partIdx (partField k p) = k ∧ plen (partField k p) = p := by
    decide +kernel
  exact h ⟨k, hk⟩ ⟨p, by omega⟩

/-! ## Encoding and parsing -/

section Encode

variable {block lenField : UInt16} {seq : UInt32} {data : Ptr}

/-- The data of a record. -/
theorem encodeRecord_data (h : plen lenField ≤ 20) {i : ℕ} (hi : i < plen lenField) :
    encodeRecord block lenField seq data (8 + i) = data i := by
  rw [encodeRecord, wr32_outside _ _ _ (by omega), if_pos (by omega), Nat.add_sub_cancel_left]

theorem encodeRecord_head {i : ℕ} (hi : i < 8) :
    encodeRecord block lenField seq data i =
      wr32 (wr16 (wr16 (fun _ => 0) 0 block) 2 lenField) 4 seq i := by
  rw [encodeRecord, wr32_outside _ _ _ (by omega), if_neg (by omega)]

theorem parseRecord_encode (h : plen lenField ≤ 20)
    (hplain : isPart lenField = false → lenField.toNat ≤ 20) :
    parseRecord (encodeRecord block lenField seq data) = some (block, lenField, seq) := by
  have hblk : rd16 (encodeRecord block lenField seq data) 0 = block := by
    rw [rd16_congr (q := wr32 (wr16 (wr16 (fun _ => 0) 0 block) 2 lenField) 4 seq) (b := 0)
      fun i hi => encodeRecord_head (by omega), rd16_wr32_of_ne _ _ _ _ (by omega),
      rd16_wr16_of_ne _ _ _ _ (by omega), rd16_wr16]
  have hlen : rd16 (encodeRecord block lenField seq data) 2 = lenField := by
    rw [rd16_congr (q := wr32 (wr16 (wr16 (fun _ => 0) 0 block) 2 lenField) 4 seq) (b := 2)
      fun i hi => encodeRecord_head (by omega), rd16_wr32_of_ne _ _ _ _ (by omega), rd16_wr16]
  have hseq : rd32 (encodeRecord block lenField seq data) 4 = seq := by
    rw [rd32_congr (q := wr32 (wr16 (wr16 (fun _ => 0) 0 block) 2 lenField) 4 seq) (b := 4)
      fun i hi => encodeRecord_head (by omega), rd32_wr32]
  have hcrc : crc32 ((encodeRecord block lenField seq data).slice 0 28) =
      rd32 (encodeRecord block lenField seq data) 28 := by
    rw [encodeRecord, rd32_wr32]
    exact congrArg crc32 (Ptr.slice_congr fun i _ hi => wr32_outside _ _ _ (by omega))
  simp only [parseRecord, hlen, hblk, hseq, hcrc, dataMax]
  cases hp : isPart lenField with
  | true => simp [h]
  | false => simp [hplain hp]

/-- A record that was encoded tells its sequence number, whatever its length field. -/
theorem encodeRecord_seq {v : UInt16 × UInt16 × UInt32}
    (h : parseRecord (encodeRecord block lenField seq data) = some v) : v.2.2 = seq := by
  have hseq : rd32 (encodeRecord block lenField seq data) 4 = seq := by
    rw [rd32_congr (q := wr32 (wr16 (wr16 (fun _ => 0) 0 block) 2 lenField) 4 seq) (b := 4)
      fun i hi => encodeRecord_head (by omega), rd32_wr32]
  unfold parseRecord at h
  dsimp only at h
  split at h
  · cases h
  · split at h
    · cases h
    · split at h
      · cases h
      · rw [← Option.some.inj h]
        exact hseq

end Encode

end BloblyEmb.Nvm
