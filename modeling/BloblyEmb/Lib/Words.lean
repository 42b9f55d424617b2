import Mathlib.Data.List.Basic
import Mathlib.Tactic.Common

/-!
# Words in a byte stream

Little-endian words read from and stored into bytes that a pointer gives access to. A read
gives back exactly what was stored, and a word determines its bytes.
-/
namespace BloblyEmb

/-- What a pointer gives access to: the byte at each offset. -/
abbrev Ptr := ℕ → UInt8

namespace Ptr

/-- A pointer to a buffer. -/
def of (bs : List UInt8) : Ptr := fun i => bs.getD i 0

/-- The `n` bytes from offset `off` on. -/
def slice (p : Ptr) (off n : ℕ) : List UInt8 := (List.range n).map fun i => p (off + i)

/-- The pointer `p` advanced by `off`. -/
def add (p : Ptr) (off : ℕ) : Ptr := fun i => p (off + i)

@[simp] theorem length_slice (p : Ptr) (off n : ℕ) : (p.slice off n).length = n := by
  simp [slice]

theorem slice_congr {p q : Ptr} {off n : ℕ} (h : ∀ i, off ≤ i → i < off + n → p i = q i) :
    p.slice off n = q.slice off n := by
  refine List.map_congr_left fun i hi => h (off + i) (by omega) ?_
  have := List.mem_range.mp hi
  omega

theorem slice_eq_iff {p q : Ptr} {off n : ℕ} :
    p.slice off n = q.slice off n ↔ ∀ i, off ≤ i → i < off + n → p i = q i := by
  refine ⟨fun h i hi hi' => ?_, slice_congr⟩
  have := congrArg (fun l => l[i - off]?) h
  simpa [slice, show i - off < n by omega, show off + (i - off) = i by omega] using this

end Ptr

/-! ## Little-endian words -/

/-- The 32-bit word at offset `off`. -/
def rd32 (p : Ptr) (off : ℕ) : UInt32 :=
  (p off).toUInt32 ||| ((p (off + 1)).toUInt32 <<< 8) ||| ((p (off + 2)).toUInt32 <<< 16) |||
    ((p (off + 3)).toUInt32 <<< 24)

/-- The 16-bit word at offset `off`. -/
def rd16 (p : Ptr) (off : ℕ) : UInt16 :=
  (p off).toUInt16 ||| ((p (off + 1)).toUInt16 <<< 8)

/-- `out` with the word `v` stored at offset `off`. -/
def wr32 (out : Ptr) (off : ℕ) (v : UInt32) : Ptr := fun i =>
  if i = off then v.toUInt8
  else if i = off + 1 then (v >>> 8).toUInt8
  else if i = off + 2 then (v >>> 16).toUInt8
  else if i = off + 3 then (v >>> 24).toUInt8
  else out i

/-- `out` with the half word `v` stored at offset `off`. -/
def wr16 (out : Ptr) (off : ℕ) (v : UInt16) : Ptr := fun i =>
  if i = off then v.toUInt8
  else if i = off + 1 then (v >>> 8).toUInt8
  else out i

/-- A word is the bytes it is stored as. -/
theorem word_of_bytes (v : UInt32) :
    v.toUInt8.toUInt32 ||| ((v >>> 8).toUInt8.toUInt32 <<< 8) |||
      ((v >>> 16).toUInt8.toUInt32 <<< 16) ||| ((v >>> 24).toUInt8.toUInt32 <<< 24) = v := by
  rw [← UInt32.toBitVec_inj]
  refine BitVec.eq_of_getLsbD_eq fun i hi => ?_
  simp only [UInt32.toBitVec_or, UInt32.toBitVec_shiftLeft, UInt8.toBitVec_toUInt32,
    UInt32.toBitVec_toUInt8, UInt32.toBitVec_shiftRight, BitVec.getLsbD_or]
  simp
  -- a bit of the word is a bit of the one byte that holds it
  have hbyte : i < 8 ∨ (8 ≤ i ∧ i < 16) ∨ (16 ≤ i ∧ i < 24) ∨ (24 ≤ i ∧ i < 32) := by omega
  rcases hbyte with h | ⟨h, h'⟩ | ⟨h, h'⟩ | ⟨h, h'⟩ <;> grind

/-- The bytes of a word put together are its bytes again. -/
theorem bytes_of_word (b0 b1 b2 b3 : UInt8) :
    let v := b0.toUInt32 ||| (b1.toUInt32 <<< 8) ||| (b2.toUInt32 <<< 16) |||
      (b3.toUInt32 <<< 24)
    v.toUInt8 = b0 ∧ (v >>> 8).toUInt8 = b1 ∧ (v >>> 16).toUInt8 = b2 ∧
      (v >>> 24).toUInt8 = b3 := by
  intro v
  refine ⟨?_, ?_, ?_, ?_⟩ <;> rw [← UInt8.toBitVec_inj] <;>
    refine BitVec.eq_of_getLsbD_eq fun i hi => ?_
  all_goals
    simp only [v, UInt32.toBitVec_or, UInt32.toBitVec_shiftLeft, UInt8.toBitVec_toUInt32,
      UInt32.toBitVec_toUInt8, UInt32.toBitVec_shiftRight]
    simp
    try grind

theorem half_of_bytes (v : UInt16) :
    v.toUInt8.toUInt16 ||| ((v >>> 8).toUInt8.toUInt16 <<< 8) = v := by
  rw [← UInt16.toBitVec_inj]
  refine BitVec.eq_of_getLsbD_eq fun i hi => ?_
  simp only [UInt16.toBitVec_or, UInt16.toBitVec_shiftLeft, UInt8.toBitVec_toUInt16,
    UInt16.toBitVec_toUInt8, UInt16.toBitVec_shiftRight, BitVec.getLsbD_or]
  simp
  rcases Nat.lt_or_ge i 8 with h | h <;> grind

/-- Which bytes a word reads as `v` from. -/
theorem rd32_eq_iff {p : Ptr} {off : ℕ} {v : UInt32} :
    rd32 p off = v ↔ p off = v.toUInt8 ∧ p (off + 1) = (v >>> 8).toUInt8 ∧
      p (off + 2) = (v >>> 16).toUInt8 ∧ p (off + 3) = (v >>> 24).toUInt8 := by
  constructor
  · rintro rfl
    obtain ⟨h0, h1, h2, h3⟩ := bytes_of_word (p off) (p (off + 1)) (p (off + 2)) (p (off + 3))
    exact ⟨h0.symm, h1.symm, h2.symm, h3.symm⟩
  · rintro ⟨h0, h1, h2, h3⟩
    rw [rd32, h0, h1, h2, h3, word_of_bytes]

theorem rd32_congr {p q : Ptr} {a b : ℕ} (h : ∀ i < 4, p (a + i) = q (b + i)) :
    rd32 p a = rd32 q b := by
  have h0 := h 0 (by omega)
  simp only [Nat.add_zero] at h0
  simp only [rd32, h0, h 1 (by omega), h 2 (by omega), h 3 (by omega)]

theorem rd16_congr {p q : Ptr} {a b : ℕ} (h : ∀ i < 2, p (a + i) = q (b + i)) :
    rd16 p a = rd16 q b := by
  have h0 := h 0 (by omega)
  simp only [Nat.add_zero] at h0
  simp only [rd16, h0, h 1 (by omega)]

/-- A store changes its four bytes only. -/
theorem wr32_outside (out : Ptr) (off : ℕ) (v : UInt32) {i : ℕ} (h : i < off ∨ off + 4 ≤ i) :
    wr32 out off v i = out i := by
  simp only [wr32]
  rw [if_neg (by omega), if_neg (by omega), if_neg (by omega), if_neg (by omega)]

theorem wr16_outside (out : Ptr) (off : ℕ) (v : UInt16) {i : ℕ} (h : i < off ∨ off + 2 ≤ i) :
    wr16 out off v i = out i := by
  simp only [wr16]
  rw [if_neg (by omega), if_neg (by omega)]

/-- What was stored is read back. -/
@[simp] theorem rd32_wr32 (out : Ptr) (off : ℕ) (v : UInt32) : rd32 (wr32 out off v) off = v := by
  simp [rd32_eq_iff, wr32]

@[simp] theorem rd16_wr16 (out : Ptr) (off : ℕ) (v : UInt16) : rd16 (wr16 out off v) off = v := by
  simpa [rd16, wr16] using half_of_bytes v

/-- A word apart from the one stored. -/
theorem rd32_wr32_of_ne (out : Ptr) (off off' : ℕ) (v : UInt32)
    (h : off' + 4 ≤ off ∨ off + 4 ≤ off') : rd32 (wr32 out off v) off' = rd32 out off' :=
  rd32_congr fun i hi => wr32_outside out off v (by omega)

theorem rd16_wr32_of_ne (out : Ptr) (off off' : ℕ) (v : UInt32)
    (h : off' + 2 ≤ off ∨ off + 4 ≤ off') : rd16 (wr32 out off v) off' = rd16 out off' :=
  rd16_congr fun i hi => wr32_outside out off v (by omega)

theorem rd32_wr16_of_ne (out : Ptr) (off off' : ℕ) (v : UInt16)
    (h : off' + 4 ≤ off ∨ off + 2 ≤ off') : rd32 (wr16 out off v) off' = rd32 out off' :=
  rd32_congr fun i hi => wr16_outside out off v (by omega)

theorem rd16_wr16_of_ne (out : Ptr) (off off' : ℕ) (v : UInt16)
    (h : off' + 2 ≤ off ∨ off + 2 ≤ off') : rd16 (wr16 out off v) off' = rd16 out off' :=
  rd16_congr fun i hi => wr16_outside out off v (by omega)

end BloblyEmb
