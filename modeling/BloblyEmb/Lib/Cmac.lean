import Mathlib.Data.List.GetD
import Mathlib.Tactic.Common

/-!
# CMAC

The authentication code of RFC 4493 over any cipher of blocks of 128 bits. A block is a bit string;
sixteen bytes stand for one, the first bit being the highest of the first byte.
-/
namespace BloblyEmb.Cmac

/-- A block. -/
abbrev Block := BitVec 128

/-- The block of the first sixteen bytes, with zeros where there are fewer. -/
def bits (b : List UInt8) : Block :=
  (BitVec.ofBoolListBE ((List.range 128).map fun k =>
    (b.getD (k / 8) 0).toBitVec.getMsbD (k % 8))).cast (by simp)

/-- The sixteen bytes of a block. -/
def bytes (x : Block) : List UInt8 :=
  (List.range 16).map fun i => UInt8.ofBitVec (x.extractLsb' (120 - 8 * i) 8)

/-- The constant of the field of 128 bits. -/
def rb : Block := 0x87

/-- A subkey: doubling in the field. -/
def double (x : Block) : Block := if x.msb then (x <<< 1) ^^^ rb else x <<< 1

/-- Block `i` of a message; the last may be shorter. -/
def block (m : List UInt8) (i : ℕ) : List UInt8 := (m.drop (16 * i)).take 16

/-- A short block, a one bit, and zeros. -/
def pad (m : List UInt8) : List UInt8 := m ++ 0x80 :: List.replicate (15 - m.length) 0

/-- AES-CMAC of RFC 4493, of the message `m` under the cipher `E`. -/
def mac (E : Block → Block) (m : List UInt8) : Block :=
  let k1 := double (E 0)
  let k2 := double k1
  let n := max 1 ((m.length + 15) / 16)
  let last := if m.length ≠ 0 ∧ m.length % 16 = 0 then bits (block m (n - 1)) ^^^ k1
    else bits (pad (block m (n - 1))) ^^^ k2
  let x := (List.range (n - 1)).foldl (fun x i => E (x ^^^ bits (block m i))) 0
  E (x ^^^ last)

/-! ## Bits and bytes -/

theorem getMsbD_bits {b : List UInt8} {k : ℕ} (hk : k < 128) :
    (bits b).getMsbD k = (b.getD (k / 8) 0).toBitVec.getMsbD (k % 8) := by
  simp [bits, List.getD_eq_getElem?_getD, hk]

theorem bits_ext {b : List UInt8} {x : Block}
    (h : ∀ i j, i < 16 → j < 8 → (b.getD i 0).toBitVec.getMsbD j = x.getMsbD (8 * i + j)) :
    bits b = x := by
  refine BitVec.eq_of_getMsbD_eq fun k hk => ?_
  rw [getMsbD_bits hk, h _ _ (by omega) (by omega)]
  congr 1
  omega

theorem getMsbD_bits_byte {b : List UInt8} {i j : ℕ} (hi : i < 16) (hj : j < 8) :
    (bits b).getMsbD (8 * i + j) = (b.getD i 0).toBitVec.getMsbD j := by
  rw [getMsbD_bits (by omega), show (8 * i + j) / 8 = i by omega, show (8 * i + j) % 8 = j by omega]

theorem bits_congr {b b' : List UInt8} (h : ∀ i < 16, b.getD i 0 = b'.getD i 0) :
    bits b = bits b' := by
  refine bits_ext fun i j hi hj => ?_
  rw [h i hi, getMsbD_bits_byte hi hj]

theorem length_bytes (x : Block) : (bytes x).length = 16 := by
  simp [bytes]

theorem bits_bytes (x : Block) : bits (bytes x) = x := by
  refine bits_ext fun i j hi hj => ?_
  have h : 120 - 8 * i + (8 - 1 - j) = 128 - 1 - (8 * i + j) := by omega
  have hbyte : (bytes x).getD i 0 = UInt8.ofBitVec (x.extractLsb' (120 - 8 * i) 8) := by
    simp [bytes, List.getD_eq_getElem?_getD, hi]
  have hlt : 8 * i + j < 128 := by omega
  have hlow : 8 - 1 - j < 8 := by omega
  rw [hbyte, BitVec.getMsbD_eq_getLsbD, BitVec.getMsbD_eq_getLsbD, BitVec.getLsbD_extractLsb', h]
  simp only [hj, hlt, hlow, decide_true, Bool.true_and]

theorem bits_injective {b b' : List UInt8} (hb : b.length = 16) (hb' : b'.length = 16)
    (h : bits b = bits b') : b = b' := by
  refine List.ext_getElem (by omega) fun i hi hi' => ?_
  rw [← List.getD_eq_getElem _ 0 hi, ← List.getD_eq_getElem _ 0 hi']
  refine UInt8.eq_of_toBitVec_eq (BitVec.eq_of_getMsbD_eq fun j hj => ?_)
  rw [← getMsbD_bits_byte (by omega) hj, ← getMsbD_bits_byte (by omega) hj, h]

theorem bytes_bits {b : List UInt8} (hb : b.length = 16) : bytes (bits b) = b :=
  bits_injective (length_bytes _) hb (bits_bytes _)

end BloblyEmb.Cmac
