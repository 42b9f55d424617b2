import BloblyEmb.Lib.Cmac
import BloblyEmb.Secoc.Cipher

/-!
# The code of a frame is AES-CMAC

The subkeys by bytes, the chain over the whole blocks and the padded last block compute the code
of the standard for every key and every message, and the message is the data id and all of the
frame but the field of the code.
-/
namespace BloblyEmb.Secoc

open Cmac (bits)

/-! ## Subkeys -/

theorem bits_xorBlock (s t : List UInt8) : bits (xorBlock s t) = bits s ^^^ bits t := by
  refine Cmac.bits_ext fun i j hi hj => ?_
  have hbyte : (xorBlock s t).getD i 0 = s.getD i 0 ^^^ t.getD i 0 := by
    simp [xorBlock, List.getD_eq_getElem?_getD, hi]
  rw [hbyte, BitVec.getMsbD_xor, Cmac.getMsbD_bits_byte hi hj, Cmac.getMsbD_bits_byte hi hj,
    UInt8.toBitVec_xor, BitVec.getMsbD_xor]

theorem bits_zero : bits (List.replicate 16 0) = 0 := by
  decide +kernel

theorem getMsbD_shifted (x y : UInt8) {j : ℕ} (hj : j < 8) :
    ((x <<< 1) ||| ((y >>> 7) &&& 1)).toBitVec.getMsbD j =
      if j = 7 then y.toBitVec.getMsbD 0 else x.toBitVec.getMsbD (j + 1) := by
  have hx : ∀ x : UInt8, ∀ j : Fin 8,
      (x <<< 1).toBitVec.getMsbD j = (decide ((j : ℕ) ≠ 7) && x.toBitVec.getMsbD (j + 1)) := by
    refine byte_forall ?_
    decide +kernel
  have hy : ∀ y : UInt8, ∀ j : Fin 8,
      ((y >>> 7) &&& 1).toBitVec.getMsbD j = (decide ((j : ℕ) = 7) && y.toBitVec.getMsbD 0) := by
    refine byte_forall ?_
    decide +kernel
  rw [UInt8.toBitVec_or, BitVec.getMsbD_or, hx x ⟨j, hj⟩, hy y ⟨j, hj⟩]
  by_cases h7 : j = 7 <;> simp [h7]

theorem msb_bits (b : List UInt8) : (bits b).msb = decide (b.getD 0 0 &&& 0x80 ≠ 0) := by
  have hbyte : ∀ x : UInt8, x.toBitVec.getMsbD 0 = decide (x &&& 0x80 ≠ 0) := by
    refine byte_forall ?_
    decide +kernel
  rw [BitVec.msb, Cmac.getMsbD_bits (by omega), ← hbyte]

/-- Shifting the bytes with their carries shifts the block. -/
theorem bits_shifted {b : List UInt8} (hb : b.length = 16) :
    bits ((List.range 16).map fun i =>
      (b.getD i 0 <<< 1) ||| ((b.getD (i + 1) 0 >>> 7) &&& 1)) = bits b <<< 1 := by
  refine Cmac.bits_ext fun i j hi hj => ?_
  have hbyte : ((List.range 16).map fun i =>
      (b.getD i 0 <<< 1) ||| ((b.getD (i + 1) 0 >>> 7) &&& 1)).getD i 0 =
        (b.getD i 0 <<< 1) ||| ((b.getD (i + 1) 0 >>> 7) &&& 1) := by
    simp [List.getD_eq_getElem?_getD, hi]
  rw [hbyte, getMsbD_shifted _ _ hj, BitVec.getMsbD_shiftLeft]
  by_cases h7 : j = 7
  · subst h7
    rw [if_pos rfl]
    by_cases h15 : i = 15
    · subst h15
      rw [List.getD_eq_default _ _ (by omega)]
      simp
    · rw [show 8 * i + 7 + 1 = 8 * (i + 1) + 0 by omega, Cmac.getMsbD_bits_byte (by omega) (by omega)]
  · rw [if_neg h7, show 8 * i + j + 1 = 8 * i + (j + 1) by omega,
      Cmac.getMsbD_bits_byte (by omega) (by omega)]

/-- The constant goes into the last byte. -/
theorem bits_set_xor {s : List UInt8} (hs : s.length = 16) :
    bits (s.set 15 (s.getD 15 0 ^^^ 0x87)) = bits s ^^^ Cmac.rb := by
  have hlow : ∀ j : Fin 8, (0x87 : UInt8).toBitVec.getMsbD j = Cmac.rb.getMsbD (8 * 15 + j) := by
    decide
  have hhigh : ∀ k : Fin 120, Cmac.rb.getMsbD k = false := by decide
  refine Cmac.bits_ext fun i j hi hj => ?_
  rw [BitVec.getMsbD_xor, Cmac.getMsbD_bits_byte hi hj]
  by_cases h15 : i = 15
  · subst h15
    rw [← hlow ⟨j, hj⟩, ← BitVec.getMsbD_xor, ← UInt8.toBitVec_xor]
    simp [List.getD_eq_getElem?_getD, hs]
  · have hk := hhigh ⟨8 * i + j, by omega⟩
    rw [hk, Bool.xor_false]
    simp [List.getD_eq_getElem?_getD, List.getElem?_set_ne (Ne.symm h15)]

/-- `gf_double` doubles. -/
theorem bits_gfDouble {b : List UInt8} (hb : b.length = 16) :
    bits (gfDouble b) = Cmac.double (bits b) := by
  have hmsb := msb_bits b
  by_cases h : b.getD 0 0 &&& 0x80 ≠ 0
  · have htrue : (bits b).msb = true := by rw [hmsb, decide_eq_true h]
    rw [gfDouble, if_pos h, bits_set_xor (by simp), bits_shifted hb, Cmac.double, if_pos htrue]
  · have hfalse : (bits b).msb = false := by rw [hmsb, decide_eq_false h]
    rw [gfDouble, if_neg h, bits_shifted hb, Cmac.double, hfalse]
    rfl

theorem length_gfDouble (b : List UInt8) : (gfDouble b).length = 16 := by
  unfold gfDouble
  dsimp only
  split <;> simp

/-! ## The message -/

/-- A whole block, and what follows it, is the block of the message. -/
theorem bits_drop (m : List UInt8) (i : ℕ) : bits (m.drop (16 * i)) = bits (Cmac.block m i) := by
  refine Cmac.bits_congr fun k hk => ?_
  simp [Cmac.block, List.getD_eq_getElem?_getD, hk]

/-- The code pads with a one bit; the zeros are those of the block. -/
theorem bits_pad (m : List UInt8) : bits (m ++ [0x80]) = bits (Cmac.pad m) := by
  refine Cmac.bits_congr fun k hk => ?_
  simp only [Cmac.pad, List.getD_eq_getElem?_getD]
  by_cases hlt : k < m.length
  · rw [List.getElem?_append_left hlt, List.getElem?_append_left hlt]
  · rw [List.getElem?_append_right (by omega), List.getElem?_append_right (by omega)]
    cases hk' : k - m.length with
    | zero => rfl
    | succ j =>
      simp only [List.getElem?_cons_succ, List.getElem?_nil, List.getElem?_replicate]
      split <;> rfl

theorem length_encrypt (key b : List UInt8) : (Aes.encrypt key b).length = 16 :=
  Aes.length_bytes _

/-- AES-128 under a key, on blocks. -/
def cipherOf (key : List UInt8) (x : Cmac.Block) : Cmac.Block :=
  bits (Aes.encrypt key (Cmac.bytes x))

theorem bits_encrypt {key b : List UInt8} (hb : b.length = 16) :
    bits (Aes.encrypt key b) = cipherOf key (bits b) := by
  rw [cipherOf, Cmac.bytes_bits hb]

section Chain

variable {key : List UInt8} (hkey : key.length = 16)
include hkey

theorem bits_encryptBlock (x t : List UInt8) :
    bits (encryptBlock (newKey key).rk (xorBlock x t)) = cipherOf key (bits x ^^^ bits t) := by
  rw [encryptBlock_eq (newKey_scheduled hkey), bits_encrypt (length_xorBlock x t), bits_xorBlock]

theorem length_encryptBlock (s : List UInt8) :
    (encryptBlock (newKey key).rk s).length = 16 := by
  rw [encryptBlock_eq (newKey_scheduled hkey), length_encrypt]

/-- The chain over the first `n` blocks. -/
theorem bits_chain (m : List UInt8) (n : ℕ) :
    bits ((List.range n).foldl (fun x i =>
      encryptBlock (newKey key).rk (xorBlock x (m.drop (16 * i)))) (List.replicate 16 0)) =
        (List.range n).foldl (fun x i => cipherOf key (x ^^^ bits (Cmac.block m i))) 0 := by
  induction n with
  | zero => exact bits_zero
  | succ n ih =>
    simp only [List.range_succ, List.foldl_append, List.foldl_cons, List.foldl_nil]
    rw [bits_encryptBlock hkey, ih, bits_drop]

/-- `cmac` is AES-CMAC, for every key and every message. -/
theorem cmac_eq (m : List UInt8) :
    cmac (newKey key).rk m = Cmac.bytes (Cmac.mac (cipherOf key) m) := by
  have hzero : bits (encryptBlock (newKey key).rk (List.replicate 16 0)) = cipherOf key 0 := by
    rw [encryptBlock_eq (newKey_scheduled hkey), bits_encrypt (by simp), bits_zero]
  have hk1 : bits (gfDouble (encryptBlock (newKey key).rk (List.replicate 16 0))) =
      Cmac.double (cipherOf key 0) := by
    rw [bits_gfDouble (length_encryptBlock hkey _), hzero]
  have hn : (if (m.length + 15) / 16 = 0 then 1 else (m.length + 15) / 16) =
      max 1 ((m.length + 15) / 16) := by
    split <;> omega
  have hlen : (cmac (newKey key).rk m).length = 16 := by
    simp only [cmac, length_encryptBlock hkey]
  refine Cmac.bits_injective hlen (Cmac.length_bytes _) ?_
  simp only [Cmac.bits_bytes, cmac, Cmac.mac, hn, bits_encryptBlock hkey, bits_chain hkey]
  refine congrArg (fun z => cipherOf key (_ ^^^ z)) ?_
  by_cases hwhole : 0 < m.length ∧ m.length % 16 = 0
  · rw [if_pos hwhole, if_pos (by omega), bits_xorBlock, bits_drop, hk1]
  · have hrest : (m.drop (16 * (max 1 ((m.length + 15) / 16) - 1))).length < 16 := by
      rw [List.length_drop]
      omega
    have hblock : Cmac.block m (max 1 ((m.length + 15) / 16) - 1) =
        m.drop (16 * (max 1 ((m.length + 15) / 16) - 1)) := List.take_of_length_le hrest.le
    rw [if_neg hwhole, if_neg (by omega), bits_xorBlock, bits_pad, hblock,
      bits_gfDouble (length_gfDouble _), hk1]

end Chain

/-! ## What the code of a frame covers -/

/-- The bytes that the code of a frame is taken over: the data id, high byte first, and the frame
before and after the field of the code. -/
def covered (data : ℕ → UInt8) (dlc : ℕ) (dataId : UInt16) (macPos macLen : ℕ) : List UInt8 :=
  (dataId >>> 8).toUInt8 :: dataId.toUInt8 :: ((List.range (min macPos dlc)).map data ++
    (List.range (dlc - (macPos + macLen))).map fun i => data (macPos + macLen + i))

theorem filter_outside (dlc a n : ℕ) :
    ((List.range dlc).filter fun i => i < a || a + n ≤ i) =
      List.range (min a dlc) ++ (List.range (dlc - (a + n))).map (a + n + ·) := by
  induction dlc with
  | zero => simp
  | succ d ih =>
    rw [List.range_succ, List.filter_append, ih]
    by_cases hlow : d < a
    · simp [hlow, show min a d = d by omega, show min a (d + 1) = d + 1 by omega, List.range_succ,
        show d - (a + n) = 0 by omega, show d + 1 - (a + n) = 0 by omega]
    · by_cases hhigh : a + n ≤ d
      · simp [hlow, hhigh, show min a d = a by omega, show min a (d + 1) = a by omega,
          show d + 1 - (a + n) = d - (a + n) + 1 by omega, List.range_succ,
          show a + n + (d - (a + n)) = d by omega]
      · simp [hlow, hhigh, show min a d = a by omega, show min a (d + 1) = a by omega,
          show d - (a + n) = 0 by omega, show d + 1 - (a + n) = 0 by omega]

theorem macInput_eq (key : Key) (data : ℕ → UInt8) {dlc : ℕ} (hdlc : dlc ≤ 64) (dataId : UInt16)
    (macPos macLen : ℕ) : macInput key data dlc dataId macPos macLen =
      some (cmac key.rk (covered data dlc dataId macPos macLen)) := by
  have hbuf : ((List.range dlc).filter fun i => i < macPos || macPos + macLen ≤ i).map data =
      (List.range (min macPos dlc)).map data ++
        (List.range (dlc - (macPos + macLen))).map fun i => data (macPos + macLen + i) := by
    rw [filter_outside, List.map_append, List.map_map]
    rfl
  have hlen : (covered data dlc dataId macPos macLen).length ≤ 66 := by
    simp [covered]
    omega
  rw [macInput, hbuf]
  exact if_pos hlen

theorem mem_covered {data : ℕ → UInt8} {dlc macPos macLen i : ℕ} {dataId : UInt16} (hi : i < dlc)
    (hout : i < macPos ∨ macPos + macLen ≤ i) :
    (covered data dlc dataId macPos macLen)[2 + if i < macPos then i else i - macLen]? =
      some (data i) := by
  rw [covered, show 2 + (if i < macPos then i else i - macLen) =
    (if i < macPos then i else i - macLen) + 1 + 1 by omega, List.getElem?_cons_succ,
    List.getElem?_cons_succ]
  by_cases hlt : i < macPos
  · rw [if_pos hlt, List.getElem?_append_left (by simp; omega)]
    simp [hlt, hi]
  · rw [if_neg hlt, List.getElem?_append_right (by simp; omega)]
    have hidx : i - macLen - min macPos dlc = i - (macPos + macLen) := by omega
    have hback : macPos + macLen + (i - (macPos + macLen)) = i := by omega
    have hin : i - (macPos + macLen) < dlc - (macPos + macLen) := by omega
    simp [hidx, hback, hin]

/-- The MAC of a frame is AES-CMAC. The cipher is AES-128 and the code AES-CMAC, for every key of 16
bytes, every block and every message. A frame of at most 64 bytes fits the buffer of the code, and
its MAC is the code of the data id, high byte first, followed by every byte outside the field of the
MAC at its place, the freshness that the sender stamps among them. -/
theorem frame_mac_is_aes_cmac {key : List UInt8} (hkey : key.length = 16) :
    (∀ i b : ℕ, (hb : b < 4) → i < 44 →
      (newKey key).rk.getD (4 * i + b) 0 = Aes.expand key i ⟨b, hb⟩) ∧
    (∀ s, encryptBlock (newKey key).rk s = Aes.encrypt key s) ∧
    (∀ m, cmac (newKey key).rk m = Cmac.bytes (Cmac.mac (cipherOf key) m)) ∧
    ∀ (t : TxState) (data : ℕ → UInt8) (dlc : ℕ) (dataId : UInt16) (freshPos macPos macLen : ℕ),
      dlc ≤ 64 → ∃ buf,
        macInput (newKey key) (Function.update data freshPos t.freshness) dlc dataId macPos macLen =
          some (cmac (newKey key).rk buf) ∧
        buf.length = 2 + min macPos dlc + (dlc - (macPos + macLen)) ∧ buf.length ≤ 66 ∧
        buf[0]? = some (dataId >>> 8).toUInt8 ∧ buf[1]? = some dataId.toUInt8 ∧
        (∀ i < dlc, i < macPos ∨ macPos + macLen ≤ i → i ≠ freshPos →
          buf[2 + if i < macPos then i else i - macLen]? = some (data i)) ∧
        (freshPos < dlc → freshPos < macPos ∨ macPos + macLen ≤ freshPos →
          buf[2 + if freshPos < macPos then freshPos else freshPos - macLen]? =
            some t.freshness) := by
  refine ⟨fun i b hb hi => (newKey_scheduled hkey).2 i b hb hi,
    fun s => encryptBlock_eq (newKey_scheduled hkey), cmac_eq hkey, ?_⟩
  intro t data dlc dataId freshPos macPos macLen hdlc
  refine ⟨_, macInput_eq _ _ hdlc dataId macPos macLen, ?_, ?_, rfl, rfl, ?_, ?_⟩
  · simp [covered]
    omega
  · simp [covered]
    omega
  · intro i hi hout hne
    rw [mem_covered hi hout, Function.update_of_ne hne]
  · intro hi hout
    rw [mem_covered hi hout, Function.update_self]

theorem frame_mac_is_aes_cmac_zero :
    cmac (newKey (List.replicate 16 0)).rk [1, 2, 3] =
      Cmac.bytes (Cmac.mac (cipherOf (List.replicate 16 0)) [1, 2, 3]) :=
  (frame_mac_is_aes_cmac (by decide : (List.replicate 16 (0 : UInt8)).length = 16)).2.2.1 [1, 2, 3]

end BloblyEmb.Secoc
