import Mathlib.Algebra.Order.Ring.Nat
import BloblyEmb.Boot.Prog
import BloblyEmb.Flash.Rules

/-!
# The check routine and the boot decision

`checkAndMark` reads the header and the image back through the driver, 64 bytes at a time,
before it programs the valid mark; `checkImageSlot` parses the memory-mapped flash at the next
reset. `Verified` states, of the flash content alone, what the first establishes, and
`checkAndMark_spec` says that the routine programs the mark exactly over verified content.
-/
namespace BloblyEmb.Boot
open Flash

variable {V : Verifier} {cfg : Config}

/-- The memory-mapped flash from address `base` on. -/
def mapped (m : Mem) (base : ℕ) : Ptr := fun i => m.byte (base + i)

@[simp] theorem mapped_slice (m : Mem) (base off n : ℕ) :
    (mapped m base).slice off n = m.bytes (base + off) n := by
  simp [Ptr.slice, Mem.bytes, mapped, Nat.add_assoc]

theorem u32_of_lt {n : ℕ} (h : n < 2 ^ 32) : u32 n = n := Nat.mod_eq_of_lt h

namespace Config

/-- The header of the installed image. -/
def header (cfg : Config) (m : Mem) : Header := parseHeader (mapped m cfg.appBase)

def imageLen (cfg : Config) (m : Mem) : ℕ := (cfg.header m).imageLen.toNat

/-- The image is required to carry a signature. -/
def signed (cfg : Config) : Bool := !keyIsZero cfg.imageKey

def sigSpan (cfg : Config) : ℕ := if cfg.signed then 64 else 0

/-- The image bytes after the header. -/
def image (cfg : Config) (m : Mem) : List UInt8 := m.bytes (cfg.appBase + 64) (cfg.imageLen m)

/-- The signature after the image. -/
def signature (cfg : Config) (m : Mem) : List UInt8 :=
  m.bytes (cfg.appBase + 64 + cfg.imageLen m) 64

/-- What the signature covers. -/
def signedBytes (cfg : Config) (m : Mem) : List UInt8 :=
  m.bytes cfg.appBase 32 ++ cfg.image m

end Config

/-- The content of the flash that deserves the valid mark. -/
structure Verified (V : Verifier) (cfg : Config) (m : Mem) : Prop where
  word0 : Word0Ok (mapped m cfg.appBase)
  fits : 64 + cfg.imageLen m + cfg.sigSpan ≤ cfg.appSize
  image : ImageOk (mapped m cfg.appBase)
  signature : cfg.signed = true →
    V.Accepts cfg.imageKey (cfg.signature m) (cfg.signedBytes m)

theorem regionOk_iff {addr size : ℕ} :
    Prog.regionOk cfg addr size = true ↔
      0 < size ∧ cfg.appBase ≤ addr ∧ addr + size ≤ cfg.appBase + cfg.appSize := by
  unfold Prog.regionOk
  split
  · simp only [Bool.false_eq_true, false_iff]
    omega
  · simp only [Bool.and_eq_true, decide_eq_true_eq]
    omega

/-- The pass over the image streams exactly the image bytes, unless a read is refused. -/
theorem walkImage_spec (V : Verifier) (cfg : Config) (signed : Bool) (imageLen : ℕ)
    (hfit : 64 + imageLen ≤ cfg.appSize) (off : ℕ) (crc : UInt32) (ver : V.State) (w : World) :
    ∃ w', w.Reads w' ∧
      ((∃ chunks : List (List UInt8),
          chunks.flatten = w.mem.bytes (cfg.appBase + 64 + off) (imageLen - off) ∧
          Prog.walkImage V cfg signed imageLen off crc ver w =
            ⟨.done (some (crc32Update crc chunks.flatten,
              if signed then chunks.foldl V.update ver else ver)), w', []⟩) ∨
        ¬ w.Steady ∧ Prog.walkImage V cfg signed imageLen off crc ver w = ⟨.done none, w', []⟩) := by
  have hwin := cfg.window
  induction hk : imageLen - off using Nat.strong_induction_on generalizing off crc ver w with
  | _ k ih =>
  subst hk
  rw [Prog.walkImage]
  by_cases hlt : off < imageLen
  · rw [if_pos hlt]
    have hn : 0 < min (imageLen - off) 64 := by omega
    generalize hn' : min (imageLen - off) 64 = n at hn ⊢
    have haddr : u32 (cfg.appBase + hdrSize.toNat + off) = cfg.appBase + 64 + off :=
      u32_of_lt (by simp only [show hdrSize.toNat = 64 from rfl]; omega)
    rw [haddr]
    obtain ⟨w₁, hr, hread | ⟨hns, hread⟩⟩ := read_spec w (cfg.appBase + 64 + off) n
    · rw [FlashM.bind_of_quiet hread]
      dsimp only
      obtain ⟨w₂, hr₂, ⟨chunks, hflat, hrun⟩ | ⟨hns, hrun⟩⟩ :=
        ih (imageLen - (off + n)) (by omega) (off + n)
          (crc32Update crc (w.mem.bytes (cfg.appBase + 64 + off) n))
          (if signed then V.update ver (w.mem.bytes (cfg.appBase + 64 + off) n) else ver) w₁ rfl
      · refine ⟨w₂, hr.trans hr₂, .inl ⟨w.mem.bytes (cfg.appBase + 64 + off) n :: chunks, ?_, ?_⟩⟩
        · rw [List.flatten_cons, hflat, hr.mem, show imageLen - off = n + (imageLen - (off + n)) by
            omega, Mem.bytes_add, Nat.add_assoc (cfg.appBase + 64) off n]
        · rw [hrun, List.flatten_cons, crc32Update_append]
          cases signed <;> rfl
      · exact ⟨w₂, hr.trans hr₂, .inr ⟨fun h => hns (hr.steady h), hrun⟩⟩
    · rw [FlashM.bind_of_quiet hread]
      exact ⟨w₁, hr, .inr ⟨hns, rfl⟩⟩
  · rw [if_neg hlt]
    refine ⟨w, .refl w, .inl ⟨[], ?_, ?_⟩⟩
    · simp [show imageLen - off = 0 by omega, Mem.bytes]
    · cases signed <;> rfl

/-- The header buffer reads as the mapped flash. -/
theorem of_bytes (m : Mem) (base n : ℕ) {i : ℕ} (h : i < n) :
    Ptr.of (m.bytes base n) i = mapped m base i := by
  simp [Ptr.of, Mem.bytes, mapped, h]

theorem parseHeader_congr {p q : Ptr} (h : ∀ i < 36, p i = q i) : parseHeader p = parseHeader q := by
  have h32 : ∀ off, off + 4 ≤ 36 → rd32 p off = rd32 q off := fun off ho =>
    rd32_congr fun i hi => h _ (by omega)
  have h16 : rd16 p 4 = rd16 q 4 := rd16_congr fun i hi => h _ (by omega)
  simp only [parseHeader, h16, h32 0 (by omega), h32 8 (by omega), h32 12 (by omega),
    h32 16 (by omega), h32 20 (by omega), h32 28 (by omega), h32 32 (by omega)]

theorem parseHeader_of_bytes (m : Mem) (cfg : Config) :
    parseHeader (Ptr.of (m.bytes cfg.appBase 64)) = cfg.header m :=
  parseHeader_congr fun i hi => of_bytes m cfg.appBase 64 (by omega)

/-- The bounds the routine checks on the length are those of `Verified`. -/
theorem fits_iff (cfg : Config) (m : Mem)
    (hmax : cfg.imageLen m ≤ maxImageLen.toNat) :
    Prog.regionOk cfg cfg.appBase (u32 (hdrSize.toNat + cfg.imageLen m + cfg.sigSpan)) = true ↔
      64 + cfg.imageLen m + cfg.sigSpan ≤ cfg.appSize := by
  have hspan : cfg.sigSpan ≤ 64 := by
    unfold Config.sigSpan
    split <;> omega
  have hmax' : cfg.imageLen m ≤ 0x01000000 := hmax
  rw [show hdrSize.toNat = 64 from rfl, u32_of_lt (by omega), regionOk_iff]
  omega

/-- The signature read of the routine, which an unsigned configuration skips. -/
theorem read_signature_spec (cfg : Config) (m : Mem) (w : World) (hm : w.mem = m)
    (hfit : 64 + cfg.imageLen m + cfg.sigSpan ≤ cfg.appSize) :
    ∃ w', w.Reads w' ∧
      ((∃ sig, (cfg.signed = true → sig = cfg.signature m) ∧
          Prog.readSignature cfg cfg.signed (cfg.imageLen m) w = ⟨.done (some sig), w', []⟩) ∨
        ¬ w.Steady ∧
          Prog.readSignature cfg cfg.signed (cfg.imageLen m) w = ⟨.done none, w', []⟩) := by
  subst hm
  have hwin := cfg.window
  unfold Prog.readSignature
  rw [show hdrSize.toNat = 64 from rfl, u32_of_lt (by omega)]
  by_cases hs : cfg.signed = true
  · rw [if_pos hs]
    obtain ⟨w', hr, h | h⟩ := read_spec w (cfg.appBase + 64 + cfg.imageLen w.mem) 64
    · exact ⟨w', hr, .inl ⟨_, fun _ => rfl, h⟩⟩
    · exact ⟨w', hr, .inr h⟩
  · rw [if_neg hs]
    exact ⟨w, .refl w, .inl ⟨[], fun h => absurd h hs, rfl⟩⟩

/-- The routine programs the mark exactly over verified content; otherwise it answers `false`
and makes no call. Without a signature it misses no verified content it can read. -/
theorem checkAndMark_spec (V : Verifier) (cfg : Config) (w : World) :
    ∃ w', w.Reads w' ∧
      ((Verified V cfg w.mem ∧
          Prog.checkAndMark V cfg w = Flash.program (u32 (cfg.appBase + 32)) Prog.markWord w') ∨
        (w.Steady → cfg.signed = false → ¬ Verified V cfg w.mem) ∧
          Prog.checkAndMark V cfg w = ⟨.done false, w', []⟩) := by
  have hwin := cfg.window
  have hsize : hdrSize.toNat = 64 := rfl
  unfold Prog.checkAndMark
  obtain ⟨w₁, hr₁, hread | ⟨hns, hread⟩⟩ := read_spec w cfg.appBase 64
  swap
  · rw [FlashM.bind_of_quiet hread]
    exact ⟨w₁, hr₁, .inr ⟨fun h => absurd h hns, rfl⟩⟩
  rw [FlashM.bind_of_quiet hread]
  dsimp only
  rw [parseHeader_of_bytes]
  have hcrc : (Ptr.of (w.mem.bytes cfg.appBase 64)).slice 0 28 =
      (mapped w.mem cfg.appBase).slice 0 28 :=
    Ptr.slice_congr fun i _ hi => of_bytes _ _ _ (by omega)
  rw [hcrc]
  -- the source's spellings of the key test and of the signature's span
  have hsigned : (!keyIsZero cfg.imageKey) = cfg.signed := rfl
  have hspan : (if cfg.signed = true then 64 else 0) = cfg.sigSpan := rfl
  have hlen : (cfg.header w.mem).imageLen.toNat = cfg.imageLen w.mem := rfl
  rw [hsigned, hspan, hlen]
  by_cases hfields : (cfg.header w.mem).magic ≠ magic ∨ (cfg.header w.mem).hdrVer ≠ hdrVer ∨
      (cfg.header w.mem).hdrSize ≠ hdrSize
  · rw [if_pos hfields]
    refine ⟨w₁, hr₁, .inr ⟨fun _ _ hv => ?_, rfl⟩⟩
    obtain ⟨h1, h2, h3, -⟩ := hv.word0
    rcases hfields with h | h | h
    · exact h h1
    · exact h h2
    · exact h h3
  rw [if_neg hfields]
  by_cases hbound : (cfg.header w.mem).imageLen = 0 ∨ (cfg.header w.mem).imageLen > maxImageLen ∨
      (!Prog.regionOk cfg cfg.appBase
        (u32 (hdrSize.toNat + cfg.imageLen w.mem + cfg.sigSpan))) = true
  · rw [if_pos hbound]
    refine ⟨w₁, hr₁, .inr ⟨fun _ _ hv => ?_, rfl⟩⟩
    obtain ⟨-, -, -, h4, h5, -⟩ := hv.word0
    rcases hbound with h | h | h
    · exact h4 h
    · exact absurd h (UInt32.not_lt.mpr h5)
    · simp [(fits_iff cfg w.mem (UInt32.le_iff_toNat_le.mp h5)).mpr hv.fits] at h
  rw [if_neg hbound]
  push Not at hfields hbound
  obtain ⟨hne, hmax, hregion⟩ := hbound
  replace hmax := UInt32.not_lt.mp hmax
  have hfits := (fits_iff cfg w.mem (UInt32.le_iff_toNat_le.mp hmax)).mp (by simpa using hregion)
  by_cases hself : crc32 ((mapped w.mem cfg.appBase).slice 0 28) ≠ (cfg.header w.mem).word0Crc
  · rw [if_pos hself]
    refine ⟨w₁, hr₁, .inr ⟨fun _ _ hv => ?_, rfl⟩⟩
    obtain ⟨-, -, -, -, -, h6⟩ := hv.word0
    exact hself h6
  rw [if_neg hself]
  push Not at hself
  have hword0 : Word0Ok (mapped w.mem cfg.appBase) :=
    ⟨hfields.1, hfields.2.1, hfields.2.2, hne, hmax, hself⟩
  obtain ⟨w₂, hr₂, ⟨sig, hsig, hread₂⟩ | ⟨hns, hread₂⟩⟩ :=
    read_signature_spec cfg w.mem w₁ hr₁.mem hfits
  swap
  · rw [FlashM.bind_of_quiet hread₂]
    exact ⟨w₂, hr₁.trans hr₂, .inr ⟨fun h => absurd (hr₁.steady h) hns, rfl⟩⟩
  rw [FlashM.bind_of_quiet hread₂]
  dsimp only
  have hr := hr₁.trans hr₂
  obtain ⟨w₃, hr₃, ⟨chunks, hchunks, hwalk⟩ | ⟨hns, hwalk⟩⟩ :=
    walkImage_spec V cfg cfg.signed (cfg.imageLen w.mem) (by omega) 0 0xFFFFFFFF
      (if cfg.signed = true then
        V.update (V.start cfg.imageKey sig) ((w.mem.bytes cfg.appBase 64).take 32)
      else V.start cfg.imageKey sig) w₂
  swap
  · rw [FlashM.bind_of_quiet hwalk]
    exact ⟨w₃, hr.trans hr₃, .inr ⟨fun h => absurd (hr.steady h) hns, rfl⟩⟩
  rw [FlashM.bind_of_quiet hwalk]
  dsimp only
  rw [hr.mem, Nat.add_zero, Nat.sub_zero] at hchunks
  rw [hchunks]
  -- the streamed CRC is the CRC of the image
  have himage : crc32Update 0xFFFFFFFF (w.mem.bytes (cfg.appBase + 64) (cfg.imageLen w.mem)) ^^^
      0xFFFFFFFF = crc32 ((mapped w.mem cfg.appBase).slice 64 (cfg.imageLen w.mem)) := by
    rw [mapped_slice, crc32_eq_update]
  rw [himage]
  by_cases hcrc' : crc32 ((mapped w.mem cfg.appBase).slice 64 (cfg.imageLen w.mem)) ≠
      (cfg.header w.mem).imageCrc
  · rw [if_pos hcrc']
    exact ⟨w₃, hr.trans hr₃, .inr ⟨fun _ _ hv => hcrc' hv.image, rfl⟩⟩
  rw [if_neg hcrc']
  push Not at hcrc'
  by_cases hs : cfg.signed = true
  · simp only [hs, if_true, true_and]
    split
    · exact ⟨w₃, hr.trans hr₃, .inr ⟨fun _ h => by simp at h, rfl⟩⟩
    · rename_i hfin
      refine ⟨w₃, hr.trans hr₃, .inl ⟨⟨hword0, hfits, hcrc', fun _ => ?_⟩, rfl⟩⟩
      refine ⟨(w.mem.bytes cfg.appBase 64).take 32 :: chunks, ?_, ?_⟩
      · rw [List.flatten_cons, hchunks, Config.signedBytes, Config.image,
          show (64 : ℕ) = 32 + 32 from rfl, Mem.bytes_add]
        simp
      · rw [← hsig hs]
        simpa using hfin
  · rw [if_neg (by simp [hs])]
    exact ⟨w₃, hr.trans hr₃, .inl ⟨⟨hword0, hfits, hcrc', fun h => absurd h hs⟩, rfl⟩⟩

/-! ## Agreement with the boot decision -/

/-- The fields that word 0 decides. -/
theorem imageFields_congr {p q : Ptr} (h : ∀ i < 32, p i = q i) :
    (parseHeader p).imageLen = (parseHeader q).imageLen ∧
      (parseHeader p).imageCrc = (parseHeader q).imageCrc :=
  ⟨rd32_congr fun i hi => h _ (by omega), rd32_congr fun i hi => h _ (by omega)⟩

theorem imageOk_congr {p q : Ptr} (h : ∀ i < 32, p i = q i)
    (himg : ∀ i, 64 ≤ i → i < 64 + (parseHeader p).imageLen.toNat → p i = q i) :
    ImageOk p → ImageOk q := by
  obtain ⟨hl, hc⟩ := imageFields_congr h
  unfold ImageOk
  rw [← hl, ← hc, Ptr.slice_congr himg]
  exact id

/-- The boot decision depends on header word 0, the mark and the image only. -/
theorem checkImageSlot_congr {p q : Ptr} {slot : UInt32} (hword0 : ∀ i < 32, p i = q i)
    (hmark : ∀ i, 32 ≤ i → i < 36 → p i = q i)
    (himg : ∀ i, 64 ≤ i → i < 64 + (parseHeader p).imageLen.toNat → p i = q i)
    (h : checkImageSlot p slot = true) : checkImageSlot q slot = true := by
  rw [checkImageSlot_iff] at h ⊢
  obtain ⟨h0, hv, hi, hfit⟩ := h
  have hq : parseHeader p = parseHeader q := parseHeader_congr fun i hi => by
    by_cases h32 : i < 32
    · exact hword0 i h32
    · exact hmark i (by omega) hi
  rw [← hq]
  exact ⟨word0Ok_congr hword0 h0, hv, imageOk_congr hword0 himg hi, hfit⟩

/-- The flash once the mark is programmed. -/
def marked (cfg : Config) (m : Mem) : Mem := m.write (u32 (cfg.appBase + 32)) Prog.markWord

@[simp] theorem length_markWord : Prog.markWord.length = 32 := rfl

theorem marked_outside (m : Mem) (h : 64 ≤ cfg.appSize) {i : ℕ} (hi : i < 32 ∨ 64 ≤ i) :
    mapped (marked cfg m) cfg.appBase i = mapped m cfg.appBase i := by
  have hwin := cfg.window
  unfold mapped marked
  rw [u32_of_lt (by omega)]
  refine Mem.byte_write_outside m _ _ _ ?_
  rw [length_markWord]
  omega

theorem marked_valid (m : Mem) (h : 64 ≤ cfg.appSize) :
    (parseHeader (mapped (marked cfg m) cfg.appBase)).valid = validMark := by
  have hwin := cfg.window
  change rd32 (mapped (marked cfg m) cfg.appBase) 32 = validMark
  have hbyte : ∀ i (hi : i < 32), mapped (marked cfg m) cfg.appBase (32 + i) =
      Prog.markWord.getD i 0 := by
    intro i hi
    unfold mapped marked
    have hlen : i < Prog.markWord.length := hi
    rw [u32_of_lt (by omega), ← Nat.add_assoc, Mem.byte_write_inside m _ i _ hlen]
    exact (List.getElem_eq_getD 0)
  rw [rd32_eq_iff]
  exact ⟨hbyte 0 (by omega), hbyte 1 (by omega), hbyte 2 (by omega), hbyte 3 (by omega)⟩

/-- Marking verified content makes the boot decision run it. -/
theorem checkImageSlot_marked {m : Mem} (h : Verified V cfg m) :
    checkImageSlot (mapped (marked cfg m) cfg.appBase) (UInt32.ofNat cfg.appSize) = true := by
  have hwin := cfg.window
  have hfits := h.fits
  have h64 : 64 ≤ cfg.appSize := by omega
  have hout : ∀ i, i < 32 ∨ 64 ≤ i →
      mapped m cfg.appBase i = mapped (marked cfg m) cfg.appBase i := fun i hi =>
    (marked_outside m h64 hi).symm
  have hlen : (parseHeader (mapped (marked cfg m) cfg.appBase)).imageLen.toNat =
      cfg.imageLen m :=
    congrArg UInt32.toNat (imageFields_congr fun i hi => (hout i (.inl hi)).symm).1
  rw [checkImageSlot_iff, hlen, UInt32.toNat_ofNat_of_lt' (by rw [UInt32.size]; omega)]
  exact ⟨word0Ok_congr (fun i hi => hout i (.inl hi)) h.word0, marked_valid m h64,
    imageOk_congr (fun i hi => hout i (.inl hi)) (fun i hi _ => hout i (.inr hi)) h.image,
    by omega⟩

/-- Unsigned content that the boot decision would run once marked is verified. -/
theorem verified_of_marked {m : Mem} (hunsigned : cfg.signed = false)
    (h : checkImageSlot (mapped (marked cfg m) cfg.appBase) (UInt32.ofNat cfg.appSize) = true) :
    Verified V cfg m := by
  have hwin := cfg.window
  rw [checkImageSlot_iff, UInt32.toNat_ofNat_of_lt' (by rw [UInt32.size]; omega)] at h
  obtain ⟨h0, -, hi, hfit⟩ := h
  have hout : ∀ i, i < 32 ∨ 64 ≤ i →
      mapped (marked cfg m) cfg.appBase i = mapped m cfg.appBase i := fun i hi =>
    marked_outside m (by omega) hi
  have hlen : (parseHeader (mapped (marked cfg m) cfg.appBase)).imageLen.toNat =
      cfg.imageLen m :=
    congrArg UInt32.toNat (imageFields_congr fun i hi => hout i (.inl hi)).1
  refine ⟨word0Ok_congr (fun i hi => hout i (.inl hi)) h0, ?_,
    imageOk_congr (fun i hi => hout i (.inl hi)) (fun i hi _ => hout i (.inr hi)) hi,
    fun hs => absurd (hunsigned.symm.trans hs) (by simp)⟩
  simp only [Config.sigSpan, hunsigned, Bool.false_eq_true, if_false]
  omega

/-- What a build tool writes is a valid header. -/
theorem makeHeader_ok (imageLen imageCrc swVersion : UInt32) (h0 : imageLen ≠ 0)
    (hmax : imageLen ≤ maxImageLen) :
    Word0Ok (makeHeader imageLen imageCrc swVersion true) ∧
      (parseHeader (makeHeader imageLen imageCrc swVersion true)).imageLen = imageLen ∧
      (parseHeader (makeHeader imageLen imageCrc swVersion true)).imageCrc = imageCrc ∧
      (parseHeader (makeHeader imageLen imageCrc swVersion true)).valid = validMark := by
  -- the CRC of word 0 covers what is stored before it
  have hcrc : ∀ (out : Ptr) (v w : UInt32),
      (wr32 (wr32 out 28 v) 32 w).slice 0 28 = out.slice 0 28 := fun out v w =>
    Ptr.slice_congr fun i _ hi => by
      rw [wr32_outside _ 32 w (by omega), wr32_outside _ 28 v (by omega)]
  simp only [Word0Ok, parseHeader, makeHeader, if_true, hcrc]
  simp [rd32_wr32_of_ne, rd32_wr16_of_ne, rd16_wr32_of_ne, rd16_wr16_of_ne, h0, hmax]

/-- A run of the check routine that answers `true` marked verified content. -/
theorem checkAndMark_true {w w' : World} {calls : List Call}
    (h : Prog.checkAndMark V cfg w = ⟨.done true, w', calls⟩) :
    Verified V cfg w.mem ∧ w'.mem = marked cfg w.mem := by
  obtain ⟨w₁, hr, ⟨hv, hrun⟩ | ⟨-, hrun⟩⟩ := checkAndMark_spec V cfg w
  · rw [hrun] at h
    have := (program_true h).1
    rw [hr.mem] at this
    exact ⟨hv, this⟩
  · simp [hrun] at h

/-- The check routine accepts verified unsigned content. -/
theorem checkAndMark_of_verified {w : World} (hsteady : w.Steady) (hfault : w.fault = none)
    (hunsigned : cfg.signed = false) (hv : Verified V cfg w.mem) :
    ∃ w' calls, Prog.checkAndMark V cfg w = ⟨.done true, w', calls⟩ := by
  obtain ⟨w₁, hr, ⟨-, hrun⟩ | ⟨hno, -⟩⟩ := checkAndMark_spec V cfg w
  · exact ⟨_, _, by rw [hrun, program_of_fault (hr.fault.trans hfault)]⟩
  · exact absurd hv (hno hsteady hunsigned)

/-- A header of the build tool, followed by its image, passes the boot decision. -/
theorem checkImageSlot_makeHeader {image : List UInt8} {swVersion slot : UInt32} {p : Ptr}
    (hpos : 1 ≤ image.length) (hmax : image.length ≤ maxImageLen.toNat)
    (hfit : 64 + image.length ≤ slot.toNat)
    (hhdr : p.slice 0 64 =
      (makeHeader (UInt32.ofNat image.length) (crc32 image) swVersion true).slice 0 64)
    (himg : p.slice 64 image.length = image) : checkImageSlot p slot = true := by
  have hmax' : image.length ≤ 0x01000000 := hmax
  have hlen : (UInt32.ofNat image.length).toNat = image.length :=
    UInt32.toNat_ofNat_of_lt' (by rw [UInt32.size]; omega)
  obtain ⟨h0, hl, hc, hv⟩ := makeHeader_ok (UInt32.ofNat image.length) (crc32 image) swVersion
    (fun h => by
      have h0 : (UInt32.ofNat image.length).toNat = 0 := congrArg UInt32.toNat h
      omega)
    (UInt32.le_iff_toNat_le.mpr (by rw [hlen]; exact hmax))
  rw [Ptr.slice_eq_iff] at hhdr
  have heq := parseHeader_congr fun i hi => hhdr i (by omega) (by omega)
  rw [checkImageSlot_iff, ImageOk, heq, hl, hc, hv, hlen, himg]
  exact ⟨word0Ok_congr (fun i hi => (hhdr i (by omega) (by omega)).symm) h0, rfl, rfl, hfit⟩

/-- The check routine and the boot decision agree. What the routine accepts, the decision runs
at the next reset, for as long as header word 0, mark and image stay as they are. Unsigned
content that the decision would run is accepted. What the build tool makes passes. -/
theorem check_and_boot_agree (V : Verifier) (cfg : Config) :
    (∀ w w' calls, Prog.checkAndMark V cfg w = ⟨.done true, w', calls⟩ →
      checkImageSlot (mapped w'.mem cfg.appBase) (UInt32.ofNat cfg.appSize) = true ∧
      ∀ m : Mem, m.bytes cfg.appBase 32 = w'.mem.bytes cfg.appBase 32 →
        m.bytes (cfg.appBase + 32) 4 = w'.mem.bytes (cfg.appBase + 32) 4 →
        m.bytes (cfg.appBase + 64) (cfg.imageLen w'.mem) = cfg.image w'.mem →
        checkImageSlot (mapped m cfg.appBase) (UInt32.ofNat cfg.appSize) = true) ∧
    (keyIsZero cfg.imageKey = true → ∀ w : World, w.Steady → w.fault = none →
      checkImageSlot (mapped (w.mem.write (u32 (cfg.appBase + 32)) Prog.markWord) cfg.appBase)
        (UInt32.ofNat cfg.appSize) = true →
      ∃ w' calls, Prog.checkAndMark V cfg w = ⟨.done true, w', calls⟩) ∧
    ∀ (image : List UInt8) (swVersion slot : UInt32) (p : Ptr), 1 ≤ image.length →
      image.length ≤ maxImageLen.toNat → 64 + image.length ≤ slot.toNat →
      p.slice 0 64 = (makeHeader (UInt32.ofNat image.length) (crc32 image) swVersion true).slice
        0 64 →
      p.slice 64 image.length = image → checkImageSlot p slot = true := by
  refine ⟨?_, ?_, ?_⟩
  · intro w w' calls hrun
    obtain ⟨hv, hm⟩ := checkAndMark_true hrun
    have hslot : checkImageSlot (mapped w'.mem cfg.appBase) (UInt32.ofNat cfg.appSize) = true :=
      hm ▸ checkImageSlot_marked hv
    refine ⟨hslot, fun m hword0 hmark himg => ?_⟩
    -- the three ranges, seen from the header's address
    rw [← Nat.add_zero cfg.appBase, ← mapped_slice, ← mapped_slice, Ptr.slice_eq_iff] at hword0
    rw [← mapped_slice, ← mapped_slice, Ptr.slice_eq_iff] at hmark
    rw [Config.image, ← mapped_slice, ← mapped_slice, Ptr.slice_eq_iff] at himg
    exact checkImageSlot_congr (fun i hi => (hword0 i (by omega) (by omega)).symm)
      (fun i hi hi' => (hmark i hi hi').symm) (fun i hi hi' => (himg i hi hi').symm) hslot
  · intro hkey w hsteady hfault hslot
    have hunsigned : cfg.signed = false := by simp [Config.signed, hkey]
    exact checkAndMark_of_verified hsteady hfault hunsigned (verified_of_marked hunsigned hslot)
  · intro image swVersion slot p hpos hmax hfit hhdr himg
    exact checkImageSlot_makeHeader hpos hmax hfit hhdr himg

end BloblyEmb.Boot
