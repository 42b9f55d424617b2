import BloblyEmb.Bcrypto.Signing
import BloblyEmb.Boot.Check

/-!
# A release

The build tool wraps an application into a file and signs it (`tools/mkimage/gen.v`). The bootloader
marks what that file leaves in the flash, and runs it at the next reset.
-/
namespace BloblyEmb.Boot

open Flash

/-- Where the vector table lands from the start of the region. -/
def vectorsOff : ℕ := 0x400

/-- What the command line asks for. -/
structure Options where
  swVersion : UInt32
  valid : Bool := false
  padVectors : Bool := false
  /-- The seed to sign with. -/
  sign : Option (Fin 32 → UInt8) := none
  /-- The key that the bootloader verifies with, in hex; empty when it is not given. -/
  key : List Char := []

/-- Why the tool gives up. -/
inductive Refusal
  | empty
  | validAndSigned
  | otherKey
  deriving DecidableEq, Repr

def hexDigit (n : ℕ) : Char := "0123456789abcdef".toList.getD n '0'

def hex (bs : List UInt8) : List Char :=
  bs.flatMap fun b => [hexDigit (b.toNat / 16), hexDigit (b.toNat % 16)]

/-- The image after the header. The pad puts the vector table at `vectorsOff`. -/
def Options.image (o : Options) (raw : List UInt8) : List UInt8 :=
  if o.padVectors then List.replicate (vectorsOff - hdrSize.toNat) 0xFF ++ raw else raw

def Options.header (o : Options) (raw : List UInt8) : List UInt8 :=
  let image := o.image raw
  (makeHeader (UInt32.ofNat image.length) (crc32 image) o.swVersion o.valid).slice 0 64

/-- The file that is written, or the reason why none is. -/
def mkimage (o : Options) (raw : List UInt8) : Option (Except Refusal (List UInt8)) :=
  if raw.length = 0 then some (.error .empty)
  else if o.valid && o.sign.isSome then some (.error .validAndSigned)
  else
    let out := o.header raw ++ o.image raw
    match o.sign with
    | none => some (.ok out)
    | some seed => do
      let pk ← Bcrypto.publicKey seed
      let want := o.key.map Char.toLower
      if want ≠ [] ∧ hex (List.ofFn pk) ≠ want then
        pure (.error .otherKey)
      else
        -- the word of the valid mark is not signed
        let sig ← Bcrypto.sign seed ((o.header raw).take 32 ++ o.image raw)
        pure (.ok (out ++ (List.range 64).map sig))

/-- The verifier that the bootloader is linked with. -/
def ed25519 : Verifier where
  State := Option Bcrypto.Verifier
  start key sig := Bcrypto.verifyStart (fun i => key.getD i 0) fun i => sig.getD i 0
  update v data := v.map (·.update data)
  finish v := v.bind Bcrypto.Verifier.finish == some true

/-! ## The check of a signed image -/

/-- The verifier does not see how the message is cut. -/
def Verifier.Streams (V : Verifier) : Prop :=
  ∀ key sig (chunks chunks' : List (List UInt8)), chunks.flatten = chunks'.flatten →
    V.finish (chunks.foldl V.update (V.start key sig)) =
      V.finish (chunks'.foldl V.update (V.start key sig))

theorem Verifier.Streams.finish {V : Verifier} (hV : V.Streams) {key sig msg : List UInt8}
    (h : V.Accepts key sig msg) (chunks : List (List UInt8)) (hflat : chunks.flatten = msg) :
    V.finish (chunks.foldl V.update (V.start key sig)) = true := by
  obtain ⟨chunks', hflat', hfinish⟩ := h
  rw [hV key sig chunks chunks' (hflat.trans hflat'.symm)]
  exact hfinish

variable {V : Verifier} {cfg : Config} {w : World}

theorem walkImage_of_steady (V : Verifier) (cfg : Config) (hsteady : w.Steady) (imageLen : ℕ) (hfit : 64 + imageLen ≤ cfg.appSize)
    (crc : UInt32) (ver : V.State) : ∃ w' chunks, w.Reads w' ∧
      List.flatten chunks = w.mem.bytes (cfg.appBase + 64) imageLen ∧
      Prog.walkImage V cfg true imageLen 0 crc ver w =
        ⟨.done (some (crc32Update crc chunks.flatten, chunks.foldl V.update ver)), w', []⟩ := by
  obtain ⟨w', hr, ⟨chunks, hchunks, hrun⟩ | ⟨hns, -⟩⟩ :=
    walkImage_spec V cfg true imageLen hfit 0 crc ver w
  · exact ⟨w', chunks, hr, by simpa using hchunks, by simpa using hrun⟩
  · exact absurd hsteady hns

/-- The check routine accepts verified signed content, where the verifier streams. -/
theorem checkAndMark_of_signed (hV : V.Streams) (hsteady : w.Steady) (hfault : w.fault = none)
    (hsigned : cfg.signed = true) (hv : Verified V cfg w.mem) :
    ∃ w' calls, Prog.checkAndMark V cfg w = ⟨.done true, w', calls⟩ := by
  have hwin := cfg.window
  have hsize : hdrSize.toNat = 64 := rfl
  have hkey : (!keyIsZero cfg.imageKey) = true := hsigned
  have hspan : cfg.sigSpan = 64 := by rw [Config.sigSpan, if_pos hsigned]
  obtain ⟨hmagic, hver, hhdr, hne, hmax, hself⟩ := hv.word0
  have hfits := hv.fits
  rw [hspan] at hfits
  have hregion : Prog.regionOk cfg cfg.appBase (u32 (hdrSize.toNat + cfg.imageLen w.mem + 64)) = true := by
    have h := (fits_iff cfg w.mem (UInt32.le_iff_toNat_le.mp hmax)).mpr hv.fits
    rwa [hspan] at h
  have hcrc : (Ptr.of (w.mem.bytes cfg.appBase 64)).slice 0 28 =
      (mapped w.mem cfg.appBase).slice 0 28 :=
    Ptr.slice_congr fun i _ hi => of_bytes _ _ _ (by omega)
  obtain ⟨w', chunks, hr, hchunks, hwalk⟩ := walkImage_of_steady V cfg hsteady (cfg.imageLen w.mem)
    (by omega) 0xFFFFFFFF (V.update (V.start cfg.imageKey (cfg.signature w.mem))
      ((w.mem.bytes cfg.appBase 64).take 32))
  have himage : crc32Update 0xFFFFFFFF chunks.flatten ^^^ 0xFFFFFFFF = (cfg.header w.mem).imageCrc := by
    have himg := hv.image
    rw [ImageOk, mapped_slice] at himg
    rw [hchunks, ← crc32_eq_update]
    exact himg
  have hword : (w.mem.bytes cfg.appBase 64).take 32 = w.mem.bytes cfg.appBase 32 := by
    rw [show (64 : ℕ) = 32 + 32 from rfl, Mem.bytes_add]
    simp
  have hfinish := hV.finish (hv.signature hsigned)
    ((w.mem.bytes cfg.appBase 64).take 32 :: chunks) (by rw [List.flatten_cons, hchunks, hword]; rfl)
  rw [List.foldl_cons] at hfinish
  suffices hrun : Prog.checkAndMark V cfg w = program (u32 (cfg.appBase + 32)) Prog.markWord w' from
    ⟨_, _, hrun.trans (program_of_fault (hr.fault.trans hfault) _ _)⟩
  unfold Prog.checkAndMark
  rw [FlashM.bind_of_quiet (read_of_steady hsteady _ _)]
  dsimp only
  rw [parseHeader_of_bytes, hcrc, hkey, if_pos rfl]
  have hfields : ¬((cfg.header w.mem).magic ≠ magic ∨ (cfg.header w.mem).hdrVer ≠ hdrVer ∨
      (cfg.header w.mem).hdrSize ≠ hdrSize) := by
    rintro (h | h | h)
    · exact h hmagic
    · exact h hver
    · exact h hhdr
  rw [if_neg hfields]
  have hbound : ¬((cfg.header w.mem).imageLen = 0 ∨ (cfg.header w.mem).imageLen > maxImageLen ∨
      (!Prog.regionOk cfg cfg.appBase (u32 (hdrSize.toNat + (cfg.header w.mem).imageLen.toNat + 64))) = true) := by
    rintro (h | h | h)
    · exact hne h
    · exact absurd h (UInt32.not_lt.mpr hmax)
    · change (!Prog.regionOk cfg cfg.appBase (u32 (hdrSize.toNat + cfg.imageLen w.mem + 64))) = true at h
      rw [hregion] at h
      cases h
  have hself' : ¬(crc32 ((mapped w.mem cfg.appBase).slice 0 28) ≠ (cfg.header w.mem).word0Crc) :=
    not_not.mpr hself
  rw [if_neg hbound, if_neg hself']
  have hread := read_of_steady hsteady (cfg.appBase + 64 + cfg.imageLen w.mem) 64
  have haddr : u32 (cfg.appBase + hdrSize.toNat + (cfg.header w.mem).imageLen.toNat) =
      cfg.appBase + 64 + cfg.imageLen w.mem := by
    change u32 (cfg.appBase + 64 + cfg.imageLen w.mem) = _
    exact u32_of_lt (by omega)
  rw [Prog.readSignature, if_pos rfl, haddr, FlashM.bind_of_quiet hread]
  dsimp only
  rw [if_pos rfl]
  change (Prog.walkImage V cfg true (cfg.imageLen w.mem) 0 0xFFFFFFFF (V.update (V.start cfg.imageKey
    (cfg.signature w.mem)) ((w.mem.bytes cfg.appBase 64).take 32)) >>= _) w = program _ _ w'
  rw [FlashM.bind_of_quiet hwalk]
  dsimp only
  have hpass : ¬(true = true ∧ V.finish (chunks.foldl V.update (V.update (V.start cfg.imageKey
      (cfg.signature w.mem)) ((w.mem.bytes cfg.appBase 64).take 32))) = false) := by
    rw [hfinish]
    simp
  rw [if_neg (not_not.mpr himage), if_neg hpass]

theorem ed25519_foldl (chunks : List (List UInt8)) (v : ed25519.State) :
    chunks.foldl ed25519.update v =
      Option.map (fun v : Bcrypto.Verifier => chunks.foldl Bcrypto.Verifier.update v) v := by
  induction chunks generalizing v with
  | nil => exact Option.map_id'.symm
  | cons data chunks ih =>
    rw [List.foldl_cons, ih]
    exact Option.map_map _ _ v

/-- What it says of a message in pieces. -/
theorem ed25519_finish (key sig : List UInt8) (chunks : List (List UInt8)) :
    ed25519.finish (chunks.foldl ed25519.update (ed25519.start key sig)) =
      (Bcrypto.verifyChunks (fun i => key.getD i 0) chunks (fun i => sig.getD i 0) == some true) := by
  rw [ed25519_foldl, Bcrypto.verifyChunks]
  change (Option.bind (Option.map _ (Bcrypto.verifyStart _ _)) Bcrypto.Verifier.finish == some true) = _
  rw [Option.bind_map, Option.bind_eq_bind, Function.comp_def]

theorem ed25519_streams : ed25519.Streams := by
  intro key sig chunks chunks' h
  rw [ed25519_finish, ed25519_finish, Bcrypto.verifyChunks_flatten _ _ h]

theorem ed25519_accepts (key sig msg : List UInt8) : ed25519.Accepts key sig msg ↔
    Bcrypto.verify (fun i => key.getD i 0) msg (fun i => sig.getD i 0) = some true := by
  have hone : [msg].flatten = msg := by simp
  have hverify := Bcrypto.verify_eq (fun i => key.getD i 0) (fun i => sig.getD i 0) [msg]
  rw [hone] at hverify
  rw [hverify]
  constructor
  · rintro ⟨chunks, hflat, hfinish⟩
    rw [ed25519_finish, beq_iff_eq] at hfinish
    rw [← hfinish]
    exact Bcrypto.verifyChunks_flatten _ _ (hone.trans hflat.symm)
  · intro h
    refine ⟨[msg], hone, ?_⟩
    rw [ed25519_finish, beq_iff_eq]
    exact h

/-! ## The file -/

/-- The key that the tool is given, if any, is the one of the seed. -/
def Options.KeyMatches (o : Options) (pk : Fin 32 → UInt8) : Prop :=
  o.key = [] ∨ o.key.map Char.toLower = hex (List.ofFn pk)

theorem mkimage_signed {o : Options} {raw : List UInt8} {seed pk : Fin 32 → UInt8} {sig : ℕ → UInt8}
    (hraw : raw ≠ []) (hvalid : o.valid = false) (hsign : o.sign = some seed)
    (hpk : Bcrypto.publicKey seed = some pk) (hkey : o.KeyMatches pk)
    (hsig : Bcrypto.sign seed ((o.header raw).take 32 ++ o.image raw) = some sig) :
    mkimage o raw = some (.ok (o.header raw ++ o.image raw ++ (List.range 64).map sig)) := by
  have hlen : raw.length ≠ 0 := fun h => hraw (List.eq_nil_of_length_eq_zero h)
  have hwant : ¬(o.key.map Char.toLower ≠ [] ∧ hex (List.ofFn pk) ≠ o.key.map Char.toLower) := by
    rintro ⟨hne, hother⟩
    rcases hkey with hkey | hkey
    · exact hne (by rw [hkey, List.map_nil])
    · exact hother hkey.symm
  unfold mkimage
  rw [if_neg hlen, hvalid, Bool.false_and, if_neg Bool.false_ne_true, hsign]
  simp only [hpk, hsig, hwant, if_false, Option.bind_eq_bind, Option.bind_some, Option.pure_def]

/-- A key of other digits is refused before anything is signed. -/
theorem mkimage_otherKey {o : Options} {raw : List UInt8} {seed pk : Fin 32 → UInt8}
    (hraw : raw ≠ []) (hvalid : o.valid = false) (hsign : o.sign = some seed)
    (hpk : Bcrypto.publicKey seed = some pk) (hkey : ¬o.KeyMatches pk) :
    mkimage o raw = some (.error .otherKey) := by
  have hlen : raw.length ≠ 0 := fun h => hraw (List.eq_nil_of_length_eq_zero h)
  have hwant : o.key.map Char.toLower ≠ [] ∧ hex (List.ofFn pk) ≠ o.key.map Char.toLower := by
    unfold Options.KeyMatches at hkey
    push Not at hkey
    exact ⟨fun h => hkey.1 (List.map_eq_nil_iff.mp h), fun h => hkey.2 h.symm⟩
  unfold mkimage
  rw [if_neg hlen, hvalid, Bool.false_and, if_neg Bool.false_ne_true, hsign]
  simp only [hpk, if_pos hwant, Option.bind_eq_bind, Option.bind_some, Option.pure_def]

section Content

variable {o : Options} {raw : List UInt8} {m : Mem}

theorem length_header (o : Options) (raw : List UInt8) : (o.header raw).length = 64 := Ptr.length_slice _ _ _

theorem image_ne_nil (hraw : raw ≠ []) : o.image raw ≠ [] := by
  unfold Options.image
  split
  · exact List.append_ne_nil_of_right_ne_nil _ hraw
  · exact hraw

/-- The header without the mark stands as well. -/
theorem makeHeader_word0 {imageLen imageCrc swVersion : UInt32} (valid : Bool) {i : ℕ} (hi : i < 32) :
    makeHeader imageLen imageCrc swVersion valid i = makeHeader imageLen imageCrc swVersion true i := by
  unfold makeHeader
  cases valid with
  | true => rfl
  | false =>
    simp only [Bool.false_eq_true, if_false, if_true]
    rw [wr32_outside _ 32 _ (by omega)]

theorem makeHeader_unmarked (imageLen imageCrc swVersion : UInt32) {i : ℕ} (hi : 32 ≤ i) :
    makeHeader imageLen imageCrc swVersion false i = 0xFF := by
  unfold makeHeader
  simp only [Bool.false_eq_true, if_false]
  rw [wr32_outside _ 28 _ (by omega), wr32_outside _ 24 _ (by omega), wr32_outside _ 20 _ (by omega),
    wr32_outside _ 16 _ (by omega), wr32_outside _ 12 _ (by omega), wr32_outside _ 8 _ (by omega),
    wr16_outside _ 6 _ (by omega), wr16_outside _ 4 _ (by omega), wr32_outside _ 0 _ (by omega)]

/-- What the flash holds where the file was written to. -/
structure Written (cfg : Config) (o : Options) (raw sig : List UInt8) (m : Mem) : Prop where
  header : m.bytes cfg.appBase 64 = o.header raw
  image : m.bytes (cfg.appBase + 64) (o.image raw).length = o.image raw
  signature : m.bytes (cfg.appBase + 64 + (o.image raw).length) 64 = sig

/-- Where the flash agrees with a file up to `n` bytes of what follows the image. -/
theorem written_of_bytes {rest : List UInt8} (n : ℕ)
    (h : m.bytes cfg.appBase (64 + (o.image raw).length + n) =
      (o.header raw ++ o.image raw ++ rest).take (64 + (o.image raw).length + n)) :
    Written cfg o raw (m.bytes (cfg.appBase + 64 + (o.image raw).length) 64) m ∧
      m.bytes (cfg.appBase + 64 + (o.image raw).length) n = rest.take n := by
  have hlen : (o.header raw ++ o.image raw).length = 64 + (o.image raw).length := by
    rw [List.length_append, length_header]
  rw [List.take_append, hlen, Nat.add_sub_cancel_left, List.take_of_length_le (by omega), Mem.bytes_add,
    Mem.bytes_add] at h
  obtain ⟨hleft, hrest⟩ := List.append_inj h (by simp [length_header, Mem.bytes])
  obtain ⟨hheader, himage⟩ := List.append_inj hleft (by simp [length_header, Mem.bytes])
  exact ⟨⟨hheader, himage, rfl⟩, by rw [Nat.add_assoc]; exact hrest⟩

variable {sig : List UInt8}

/-- The length and the CRC that the header gives, and its mark. -/
theorem Written.fields (h : Written cfg o raw sig m) (hraw : raw ≠ [])
    (hmax : (o.image raw).length ≤ maxImageLen.toNat) (hvalid : o.valid = false) :
    Word0Ok (mapped m cfg.appBase) ∧ cfg.imageLen m = (o.image raw).length ∧
      ImageOk (mapped m cfg.appBase) ∧ (parseHeader (mapped m cfg.appBase)).valid ≠ validMark := by
  have hmax' : (o.image raw).length ≤ 0x01000000 := hmax
  have hpos := List.length_pos_of_ne_nil (@image_ne_nil o raw hraw)
  have hlen : (UInt32.ofNat (o.image raw).length).toNat = (o.image raw).length :=
    UInt32.toNat_ofNat_of_lt' (by rw [UInt32.size]; omega)
  obtain ⟨hword0, hl, hc, -⟩ := makeHeader_ok (UInt32.ofNat (o.image raw).length)
    (crc32 (o.image raw)) o.swVersion
    (fun h => by
      have h0 : (UInt32.ofNat (o.image raw).length).toNat = 0 := congrArg UInt32.toNat h
      omega)
    (UInt32.le_iff_toNat_le.mpr (by rw [hlen]; exact hmax))
  have hbytes := h.header
  rw [Options.header, ← Nat.add_zero cfg.appBase, ← mapped_slice, hvalid, Ptr.slice_eq_iff] at hbytes
  have hsame : ∀ i < 32, makeHeader (UInt32.ofNat (o.image raw).length) (crc32 (o.image raw)) o.swVersion
      true i = mapped m cfg.appBase i := by
    intro i hi
    rw [hbytes i (by omega) (by omega), makeHeader_word0 false hi]
  obtain ⟨hl', hc'⟩ := imageFields_congr hsame
  rw [hl] at hl'
  rw [hc] at hc'
  have hil : cfg.imageLen m = (o.image raw).length := by
    rw [Config.imageLen, Config.header, ← hl', hlen]
  refine ⟨word0Ok_congr hsame hword0, hil, ?_, ?_⟩
  · have hil' : (parseHeader (mapped m cfg.appBase)).imageLen.toNat = (o.image raw).length := hil
    rw [ImageOk, hil', ← hc', mapped_slice, h.image]
  · intro hmark
    have hfirst := (rd32_eq_iff.mp (show rd32 (mapped m cfg.appBase) 32 = validMark from hmark)).1
    rw [hbytes 32 (by omega) (by omega), makeHeader_unmarked _ _ _ (by omega)] at hfirst
    exact absurd hfirst (by decide)

theorem Written.signed (h : Written cfg o raw sig m) (hraw : raw ≠ [])
    (hmax : (o.image raw).length ≤ maxImageLen.toNat) (hvalid : o.valid = false) :
    cfg.signature m = sig ∧ cfg.signedBytes m = (o.header raw).take 32 ++ o.image raw := by
  obtain ⟨-, hlen, -⟩ := h.fields hraw hmax hvalid
  constructor
  · rw [Config.signature, hlen, h.signature]
  · rw [Config.signedBytes, Config.image, hlen, h.image, ← h.header, show (64 : ℕ) = 32 + 32 from rfl,
      Mem.bytes_add]
    simp

end Content

theorem getD_range_map (sig : ℕ → UInt8) {i : ℕ} (hi : i < 64) : ((List.range 64).map sig).getD i 0 = sig i := by
  simp [hi]

theorem getD_ofFn (pk : Fin 32 → UInt8) : (fun i : Fin 32 => (List.ofFn pk).getD i 0) = pk := by
  funext i
  rw [List.getD_eq_getElem _ _ (by simp), List.getElem_ofFn]

/-- A derived key is never the one that turns the check of a signature off. -/
theorem publicKey_not_zero {seed pk : Fin 32 → UInt8} (h : Bcrypto.publicKey seed = some pk) :
    keyIsZero (List.ofFn pk) = false := by
  rw [Bool.eq_false_iff]
  intro hzero
  refine Bcrypto.publicKey_ne_zero h (funext fun i => ?_)
  have hall := List.all_eq_true.mp hzero (pk i) (List.mem_ofFn.mpr ⟨i, rfl⟩)
  exact beq_iff_eq.mp hall

/-- The first half of what is read, byte by byte. -/
theorem getD_of_bytes {m : Mem} {a : ℕ} {sig : ℕ → UInt8} {n : ℕ} (hn : n ≤ 64)
    (h : m.bytes a n = ((List.range 64).map sig).take n) {i : ℕ} (hi : i < n) :
    (m.bytes a 64).getD i 0 = sig i := by
  have hbyte := congrArg (fun l => l.getD i 0) h
  have hlt : i < 64 := Nat.lt_of_lt_of_le hi hn
  simpa [Mem.bytes, hi, hlt, List.getElem?_take_of_lt] using hbyte

/-- A file that is signed for the key of the bootloader is marked by its check routine, which reads it
in pieces, and the next reset runs it; until then none does. The key is never the one that turns the
check off, and a signature with another second half is refused without a call to the flash. Where the
tool is told of another key, it signs nothing. -/
theorem release_boots (o : Options) (raw : List UInt8) (seed : Fin 32 → UInt8) (hraw : raw ≠ [])
    (hvalid : o.valid = false) (hsign : o.sign = some seed)
    (hmax : (o.image raw).length ≤ maxImageLen.toNat) :
    ∃ pk, Bcrypto.publicKey seed = some pk ∧ keyIsZero (List.ofFn pk) = false ∧
      (¬o.KeyMatches pk → mkimage o raw = some (.error .otherKey)) ∧
      (o.KeyMatches pk → ∃ file, mkimage o raw = some (.ok file) ∧
        ∀ (cfg : Config) (w : World), cfg.imageKey = List.ofFn pk → file.length ≤ cfg.appSize →
          w.Steady → w.fault = none →
          w.mem.bytes cfg.appBase (file.length - 32) = file.take (file.length - 32) →
          checkImageSlot (mapped w.mem cfg.appBase) (UInt32.ofNat cfg.appSize) = false ∧
          (w.mem.bytes cfg.appBase file.length = file →
            ∃ w' calls, Prog.checkAndMark ed25519 cfg w = ⟨.done true, w', calls⟩ ∧
              decide false (checkImageSlot (mapped w'.mem cfg.appBase) (UInt32.ofNat cfg.appSize)) =
                .runApp) ∧
          (w.mem.bytes cfg.appBase file.length ≠ file →
            ∃ w', Prog.checkAndMark ed25519 cfg w = ⟨.done false, w', []⟩)) := by
  have hmax' : (o.image raw).length ≤ 0x01000000 := hmax
  have hmsg : 64 + ((o.header raw).take 32 ++ o.image raw).length < 2 ^ 61 := by
    rw [List.length_append, List.length_take]
    omega
  obtain ⟨pk, sig, hpk, hsig, -, hverify, hunique⟩ := Bcrypto.sign_verify seed _ hmsg
  have hkey : keyIsZero (List.ofFn pk) = false := publicKey_not_zero hpk
  refine ⟨pk, hpk, hkey, fun hno => mkimage_otherKey hraw hvalid hsign hpk hno, fun hmatch => ?_⟩
  refine ⟨_, mkimage_signed hraw hvalid hsign hpk hmatch hsig, fun cfg w hcfg hfit hsteady hfault hfirst => ?_⟩
  have hlen : (o.header raw ++ o.image raw ++ (List.range 64).map sig).length =
      64 + (o.image raw).length + 64 := by
    rw [List.length_append, List.length_append, length_header, List.length_map, List.length_range]
  rw [hlen] at hfirst hfit ⊢
  have hsigned : cfg.signed = true := by rw [Config.signed, hcfg, hkey, Bool.not_false]
  obtain ⟨hw, hhalf⟩ := written_of_bytes 32 hfirst
  obtain ⟨hword0, hil, himage, hmark⟩ := hw.fields hraw hmax hvalid
  obtain ⟨hs, hsb⟩ := hw.signed hraw hmax hvalid
  -- a signature with the same first half is accepted just if it is the one of the file
  have haccepts : ed25519.Accepts cfg.imageKey (cfg.signature w.mem) (cfg.signedBytes w.mem) ↔
      ∀ i < 64, (cfg.signature w.mem).getD i 0 = sig i := by
    rw [ed25519_accepts, hcfg, getD_ofFn, hsb]
    refine hunique _ fun i hi => ?_
    rw [hs]
    exact getD_of_bytes (by decide) hhalf hi
  refine ⟨?_, fun hfile => ?_, fun hfile => ?_⟩
  · rw [Bool.eq_false_iff, Ne, checkImageSlot_iff]
    exact fun h => hmark h.2.1
  · obtain ⟨-, hall⟩ := written_of_bytes 64 (by rw [hfile, List.take_of_length_le hlen.le])
    have hv : Verified ed25519 cfg w.mem := by
      refine ⟨hword0, ?_, himage, fun _ => haccepts.mpr fun i hi => ?_⟩
      · rw [hil, Config.sigSpan, if_pos hsigned]
        exact hfit
      · rw [hs]
        exact getD_of_bytes (Nat.le_refl 64) hall hi
    obtain ⟨w', calls, hrun⟩ := checkAndMark_of_signed ed25519_streams hsteady hfault hsigned hv
    refine ⟨w', calls, hrun, ?_⟩
    rw [(checkAndMark_true hrun).2, checkImageSlot_marked hv]
    rfl
  · obtain ⟨w', hr, ⟨hv, -⟩ | ⟨-, hrun⟩⟩ := checkAndMark_spec ed25519 cfg w
    · have hall := haccepts.mp (hv.signature hsigned)
      refine absurd ?_ hfile
      have hsame : w.mem.bytes (cfg.appBase + 64 + (o.image raw).length) 64 = (List.range 64).map sig := by
        refine List.ext_getElem (by simp [Mem.bytes]) fun i hi hi' => ?_
        have hlt : i < 64 := by simpa using hi'
        have hbyte := hall i hlt
        rw [hs, List.getD_eq_getElem _ _ hi] at hbyte
        rw [hbyte, List.getElem_map, List.getElem_range]
      rw [Mem.bytes_add, Mem.bytes_add, hw.header, hw.image, ← Nat.add_assoc, hsame]
    · exact ⟨w', hrun⟩

theorem release_boots_one : ∃ pk file, Bcrypto.publicKey (fun _ => 7) = some pk ∧
    keyIsZero (List.ofFn pk) = false ∧
    mkimage { swVersion := 1, sign := some fun _ => 7 } [0xAA, 0x55] = some (.ok file) := by
  obtain ⟨pk, hpk, hkey, -, hfile⟩ := release_boots { swVersion := 1, sign := some fun _ => 7 }
    [0xAA, 0x55] (fun _ => 7) (by decide) rfl rfl (by decide)
  obtain ⟨file, hok, -⟩ := hfile (.inl rfl)
  exact ⟨pk, file, hpk, hkey, hok⟩

end BloblyEmb.Boot
