import BloblyEmb.Lib.Words

/-!
# The image header

The contract between the tool that builds an image, the programming session that installs it
and the decision taken at reset (`boot/boot.v`). An image is preceded by a header of 64 bytes,
two program words:

* word 0 (offsets 0 to 31): magic, header version, image length, CRC of the image, software
  version, header size, and a CRC over the first 28 bytes;
* word 1 (offsets 32 to 63): the valid mark and erased bytes.

The valid mark has a word of its own so that it can be written last.
-/
namespace BloblyEmb.Boot

def magic : UInt32 := 0x54424C42
def validMark : UInt32 := 0x444C4156
def hdrSize : UInt32 := 64
def hdrVer : UInt16 := 1

/-- Lengths above this are refused before any CRC walk. -/
def maxImageLen : UInt32 := 0x01000000

structure Header where
  magic : UInt32
  hdrVer : UInt16
  imageLen : UInt32
  imageCrc : UInt32
  swVersion : UInt32
  hdrSize : UInt32
  word0Crc : UInt32
  valid : UInt32
  deriving DecidableEq, Repr

/-- One byte into the running CRC: eight shifts of the reflected polynomial. -/
def crcByte (crc : UInt32) (b : UInt8) : UInt32 :=
  (List.range 8).foldl
    (fun crc _ =>
      let mask := -(crc &&& 1)
      (crc >>> 1) ^^^ (0xEDB88320 &&& mask))
    (crc ^^^ b.toUInt32)

/-- CRC-32 of a block of bytes. -/
def crc32 (data : List UInt8) : UInt32 := data.foldl crcByte 0xFFFFFFFF ^^^ 0xFFFFFFFF

/-- The streaming form: the caller owns the initial value and the final complement. -/
def crc32Update (crc : UInt32) (data : List UInt8) : UInt32 := data.foldl crcByte crc

theorem crc32Update_append (crc : UInt32) (xs ys : List UInt8) :
    crc32Update crc (xs ++ ys) = crc32Update (crc32Update crc xs) ys := List.foldl_append

/-- The two forms agree on the whole block. -/
theorem crc32_eq_update (data : List UInt8) :
    crc32 data = crc32Update 0xFFFFFFFF data ^^^ 0xFFFFFFFF := rfl

/-! ## The decision at reset -/

/-- The fields of the header block at `p`, not validated. -/
def parseHeader (p : Ptr) : Header where
  magic := rd32 p 0
  hdrVer := rd16 p 4
  imageLen := rd32 p 8
  imageCrc := rd32 p 12
  swVersion := rd32 p 16
  hdrSize := rd32 p 20
  word0Crc := rd32 p 28
  valid := rd32 p 32

/-- Word 0 is a self-consistent header and the valid mark is set. -/
def checkHeader (p : Ptr) : Bool :=
  let h := parseHeader p
  if h.magic != magic || h.hdrVer != hdrVer || h.hdrSize != hdrSize then
    false
  else if h.imageLen == 0 || h.imageLen > maxImageLen then
    false
  else if crc32 (p.slice 0 28) != h.word0Crc then
    false
  else
    h.valid == validMark

/-- The header stands and the image bytes match its CRC. -/
def checkImage (img : Ptr) : Bool :=
  if !checkHeader img then
    false
  else
    let h := parseHeader img
    crc32 (img.slice hdrSize.toNat h.imageLen.toNat) == h.imageCrc

/-- The verdict of the boot decision, bounded to the application slot. -/
def checkImageSlot (img : Ptr) (slot : UInt32) : Bool :=
  let h := parseHeader img
  if hdrSize.toUInt64 + h.imageLen.toUInt64 > slot.toUInt64 then
    false
  else
    checkImage img

/-- What a reset does next. -/
inductive Action
  | runApp
  | stayBoot
  deriving DecidableEq, Repr

def decide (progRequested appValid : Bool) : Action :=
  if progRequested || !appValid then .stayBoot else .runApp

/-- Header word 0, and the valid mark when `valid` asks for it, for a build tool. -/
def makeHeader (imageLen imageCrc swVersion : UInt32) (valid : Bool) : Ptr :=
  let out : Ptr := fun _ => 0xFF
  let out := wr32 out 0 magic
  let out := wr16 out 4 hdrVer
  let out := wr16 out 6 0
  let out := wr32 out 8 imageLen
  let out := wr32 out 12 imageCrc
  let out := wr32 out 16 swVersion
  let out := wr32 out 20 hdrSize
  let out := wr32 out 24 0
  let out := wr32 out 28 (crc32 (out.slice 0 28))
  if valid then wr32 out 32 validMark else out

/-! ## What the verdict rests on -/

/-- The header stands but for the mark: the part of the verdict that word 0 alone decides. -/
def Word0Ok (p : Ptr) : Prop :=
  let h := parseHeader p
  h.magic = magic ∧ h.hdrVer = hdrVer ∧ h.hdrSize = hdrSize ∧ h.imageLen ≠ 0 ∧
    h.imageLen ≤ maxImageLen ∧ crc32 (p.slice 0 28) = h.word0Crc

/-- The image bytes after the header match the CRC in it. -/
def ImageOk (p : Ptr) : Prop :=
  crc32 (p.slice 64 (parseHeader p).imageLen.toNat) = (parseHeader p).imageCrc

theorem checkHeader_iff (p : Ptr) :
    checkHeader p = true ↔ Word0Ok p ∧ (parseHeader p).valid = validMark := by
  simp only [checkHeader, Word0Ok]
  split <;> rename_i h1
  · simp only [Bool.or_eq_true, bne_iff_ne] at h1
    simp only [Bool.false_eq_true, false_iff]
    tauto
  · simp only [Bool.or_eq_true, bne_iff_ne, not_or, not_not] at h1
    split <;> rename_i h2
    · simp only [Bool.or_eq_true, beq_iff_eq, decide_eq_true_eq] at h2
      simp only [Bool.false_eq_true, false_iff]
      rintro ⟨⟨-, -, -, hne, hle, -⟩, -⟩
      rcases h2 with h2 | h2
      · exact hne h2
      · exact absurd h2 (UInt32.not_lt.mpr hle)
    · simp only [Bool.or_eq_true, beq_iff_eq, decide_eq_true_eq, not_or] at h2
      have hle := UInt32.not_lt.mp h2.2
      split <;> rename_i h3
      · simp only [bne_iff_ne] at h3
        simp only [Bool.false_eq_true, false_iff]
        tauto
      · simp only [bne_iff_ne, not_not] at h3
        simp only [beq_iff_eq]
        tauto

theorem checkImageSlot_iff (p : Ptr) (slot : UInt32) :
    checkImageSlot p slot = true ↔
      Word0Ok p ∧ (parseHeader p).valid = validMark ∧ ImageOk p ∧
        64 + (parseHeader p).imageLen.toNat ≤ slot.toNat := by
  have hfit : (hdrSize.toUInt64 + (parseHeader p).imageLen.toUInt64 > slot.toUInt64) ↔
      ¬ 64 + (parseHeader p).imageLen.toNat ≤ slot.toNat := by
    have hl := (parseHeader p).imageLen.toNat_lt
    rw [gt_iff_lt, UInt64.lt_iff_toNat_lt, UInt64.toNat_add]
    simp only [UInt32.toNat_toUInt64, show hdrSize.toNat = 64 from rfl]
    omega
  simp only [checkImageSlot, checkImage]
  by_cases h : 64 + (parseHeader p).imageLen.toNat ≤ slot.toNat
  · rw [if_neg (by simpa [hfit] using h)]
    by_cases hh : checkHeader p = true
    · have := (checkHeader_iff p).mp hh
      simp only [hh, Bool.not_true, Bool.false_eq_true, if_false, beq_iff_eq]
      simp only [ImageOk, show hdrSize.toNat = 64 from rfl]
      tauto
    · have := mt (checkHeader_iff p).mpr hh
      simp only [Bool.not_eq_true] at hh
      simp only [hh, Bool.not_false, if_true, Bool.false_eq_true, false_iff]
      tauto
  · rw [if_pos (hfit.mpr h)]
    simp [h]

/-- Word 0 is read from the first 32 bytes only. -/
theorem word0Ok_congr {p q : Ptr} (h : ∀ i < 32, p i = q i) : Word0Ok p → Word0Ok q := by
  have hs : p.slice 0 28 = q.slice 0 28 := Ptr.slice_congr fun i _ hi => h i (by omega)
  have h32 : ∀ off, off + 4 ≤ 32 → rd32 p off = rd32 q off := fun off ho =>
    rd32_congr fun i hi => h _ (by omega)
  have h16 : rd16 p 4 = rd16 q 4 := rd16_congr fun i hi => h _ (by omega)
  simp only [Word0Ok, parseHeader, hs, h16, h32 0 (by omega), h32 8 (by omega),
    h32 20 (by omega), h32 28 (by omega)]
  exact id

end BloblyEmb.Boot
