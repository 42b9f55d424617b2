import Mathlib.Data.Nat.Bitwise
import Mathlib.Tactic.Common

/-!
# Bits of a string of bytes

Bit `g` is bit `g % 8` of byte `g / 8`, the lowest bit of a byte first. Bits are read and written one
at a time, at positions that need not be in order.
-/
namespace BloblyEmb.Bits

/-- A bit as a byte. -/
def bit (b : Bool) : UInt8 := if b then 1 else 0

/-- Whether the bit is set; beyond the end none is. -/
def isSet (data : List UInt8) (g : ℕ) : Bool := (data.getD (g / 8) 0).toNat.testBit (g % 8)

def get (data : List UInt8) (g : ℕ) : UInt8 := (data.getD (g / 8) 0 >>> UInt8.ofNat (g % 8)) &&& 1

def put (data : List UInt8) (g : ℕ) (x : UInt8) : List UInt8 :=
  let mask : UInt8 := 1 <<< UInt8.ofNat (g % 8)
  data.set (g / 8) ((data.getD (g / 8) 0 &&& ~~~mask) ||| (x <<< UInt8.ofNat (g % 8)))

/-! ## One bit -/

theorem shiftRight_and_one (x : UInt8) {k : ℕ} (hk : k < 8) :
    (x >>> UInt8.ofNat k) &&& 1 = bit (x.toNat.testBit k) := by
  have hmod : k % 8 = k := Nat.mod_eq_of_lt hk
  rw [← UInt8.toBitVec_inj]
  apply BitVec.eq_of_getLsbD_eq
  intro i _
  rw [show x.toNat.testBit k = x.toBitVec.getLsbD k from rfl]
  rcases Nat.eq_zero_or_pos i with rfl | hpos
  · cases h : x.toBitVec.getLsbD k <;> simp [bit, hmod, h]
  · cases x.toBitVec.getLsbD k <;> simp [bit, hmod, Nat.pos_iff_ne_zero.mp hpos]

theorem testBit_masked (x : UInt8) (b : Bool) {j k : ℕ} (hj : j < 8) (hk : k < 8) :
    ((x &&& ~~~((1 : UInt8) <<< UInt8.ofNat k)) ||| (bit b <<< UInt8.ofNat k)).toNat.testBit j =
      if j = k then b else x.toNat.testBit j := by
  have hmod : k % 8 = k := Nat.mod_eq_of_lt hk
  simp only [← UInt8.toNat_toBitVec, BitVec.testBit_toNat, UInt8.toBitVec_or, UInt8.toBitVec_and,
    UInt8.toBitVec_not, UInt8.toBitVec_shiftLeft, BitVec.getLsbD_or, BitVec.getLsbD_and,
    BitVec.getLsbD_not]
  rcases Nat.lt_trichotomy j k with h | rfl | h
  · simp [hmod, hj, h, Nat.ne_of_lt h]
  · cases b <;> simp [bit, hmod, hj]
  · have hle : ¬j < k := by omega
    have hpos : j - k ≠ 0 := by omega
    cases b <;> simp [bit, hmod, hj, hle, hpos, Nat.ne_of_gt h]

theorem get_eq (data : List UInt8) (g : ℕ) : get data g = bit (isSet data g) :=
  shiftRight_and_one _ (Nat.mod_lt _ (by decide))

theorem isSet_of_le {data : List UInt8} {g : ℕ} (h : data.length ≤ g / 8) :
    isSet data g = false := by
  rw [isSet, List.getD_eq_default _ _ h]
  exact Nat.zero_testBit _

@[simp] theorem length_put (data : List UInt8) (g : ℕ) (x : UInt8) :
    (put data g x).length = data.length := by
  rw [put, List.length_set]

theorem put_of_le {data : List UInt8} {g : ℕ} (h : data.length ≤ g / 8) (x : UInt8) :
    put data g x = data :=
  List.set_eq_of_length_le h

theorem isSet_put (data : List UInt8) (g h : ℕ) (b : Bool) :
    isSet (put data g (bit b)) h =
      if h = g ∧ g / 8 < data.length then b else isSet data h := by
  unfold isSet put
  by_cases hbyte : h / 8 = g / 8
  · rw [hbyte]
    by_cases hroom : g / 8 < data.length
    · rw [List.getD_eq_getElem _ _ (by rw [List.length_set]; exact hroom), List.getElem_set_self,
        testBit_masked _ b (Nat.mod_lt h (by decide)) (Nat.mod_lt g (by decide))]
      by_cases hpos : h % 8 = g % 8
      · have heq : h = g := by omega
        rw [if_pos hpos, if_pos ⟨heq, hroom⟩]
      · have hne : h ≠ g := fun heq => hpos (heq ▸ rfl)
        rw [if_neg hpos, if_neg fun hand => hne hand.1]
    · rw [if_neg fun hand => hroom hand.2, List.set_eq_of_length_le (Nat.le_of_not_lt hroom)]
  · have hne : h ≠ g := fun heq => hbyte (heq ▸ rfl)
    rw [if_neg fun hand => hne hand.1]
    simp only [List.getD_eq_getElem?_getD]
    rw [List.getElem?_set_ne (Ne.symm hbyte)]

/-! ## Bits at given positions -/

/-- Writes bit after bit, each at the position that the index gives. -/
def putAll (pos : ℕ → ℕ) (b : ℕ → Bool) (n : ℕ) (data : List UInt8) : List UInt8 :=
  (List.range n).foldl (fun d i => put d (pos i) (bit (b i))) data

section PutAll

variable (pos : ℕ → ℕ) (b : ℕ → Bool) (data : List UInt8)

theorem putAll_succ (n : ℕ) :
    putAll pos b (n + 1) data = put (putAll pos b n data) (pos n) (bit (b n)) := by
  rw [putAll, List.range_succ, List.foldl_append]
  rfl

@[simp] theorem length_putAll (n : ℕ) : (putAll pos b n data).length = data.length := by
  induction n with
  | zero => rfl
  | succ n ih => rw [putAll_succ, length_put, ih]

/-- What no index points to stays. -/
theorem isSet_putAll_of_ne {n g : ℕ} (h : ∀ i < n, pos i ≠ g) :
    isSet (putAll pos b n data) g = isSet data g := by
  induction n with
  | zero => rfl
  | succ n ih =>
    rw [putAll_succ, isSet_put, if_neg fun hand => h n (Nat.lt_succ_self n) hand.1.symm]
    exact ih fun i hi => h i (Nat.lt_succ_of_lt hi)

/-- Each bit is where it was written, if no two go to the same place. -/
theorem isSet_putAll {n i : ℕ} (hinj : ∀ i < n, ∀ j < n, pos i = pos j → i = j) (hi : i < n)
    (hroom : pos i / 8 < data.length) : isSet (putAll pos b n data) (pos i) = b i := by
  induction n with
  | zero => exact absurd hi (Nat.not_lt_zero i)
  | succ n ih =>
    rw [putAll_succ, isSet_put]
    by_cases hlast : i = n
    · rw [hlast, length_putAll, if_pos ⟨rfl, hlast ▸ hroom⟩]
    · have hlt : i < n := by omega
      rw [if_neg fun hand => hlast (hinj i hi n (Nat.lt_succ_self n) hand.1)]
      exact ih (fun i hi j hj => hinj i (Nat.lt_succ_of_lt hi) j (Nat.lt_succ_of_lt hj)) hlt

end PutAll

/-! ## Words, bit by bit -/

theorem testBit_of_le (x : UInt64) {j : ℕ} (h : 64 ≤ j) : x.toNat.testBit j = false :=
  Nat.testBit_lt_two_pow (Nat.lt_of_lt_of_le x.toNat_lt (Nat.pow_le_pow_right (by decide) h))

theorem testBit_bit (b : Bool) (j : ℕ) :
    (bit b).toUInt64.toNat.testBit j = (decide (j = 0) && b) := by
  cases b with
  | false => simp [bit]
  | true =>
    cases j with
    | zero => rfl
    | succ j => simp [bit, Nat.testBit_succ]

/-- The next lower bit goes in from below. -/
theorem testBit_shift_in (x : UInt64) (b : Bool) {j : ℕ} (hj : j < 64) :
    ((x <<< 1) ||| (bit b).toUInt64).toNat.testBit j =
      if j = 0 then b else x.toNat.testBit (j - 1) := by
  rw [UInt64.toNat_or, Nat.testBit_or, testBit_bit, UInt64.toNat_shiftLeft,
    show (1 : UInt64).toNat % 64 = 1 from rfl, Nat.testBit_mod_two_pow, Nat.testBit_shiftLeft]
  rcases Nat.eq_zero_or_pos j with rfl | hpos
  · simp
  · have hne : j ≠ 0 := Nat.pos_iff_ne_zero.mp hpos
    simp [hj, hne, Nat.succ_le_of_lt hpos]

/-- A bit goes in at its place. -/
theorem testBit_or_at (x : UInt64) (b : Bool) {i j : ℕ} (hi : i < 64) (hj : j < 64) :
    (x ||| ((bit b).toUInt64 <<< UInt64.ofNat i)).toNat.testBit j =
      (x.toNat.testBit j || (decide (j = i) && b)) := by
  rw [UInt64.toNat_or, Nat.testBit_or, UInt64.toNat_shiftLeft, UInt64.toNat_ofNat',
    Nat.mod_eq_of_lt (a := i) (by omega), Nat.mod_eq_of_lt hi, Nat.testBit_mod_two_pow,
    Nat.testBit_shiftLeft, testBit_bit]
  rcases Nat.lt_trichotomy j i with h | rfl | h
  · simp [hj, Nat.ne_of_lt h, Nat.not_le_of_lt h]
  · simp [hj]
  · have hpos : j - i ≠ 0 := by omega
    simp [hj, hpos, Nat.ne_of_gt h]

/-- The bit that a shift by its index leaves lowest. -/
theorem bit_of_shift (x : UInt64) {i : ℕ} (hi : i < 64) :
    ((x >>> UInt64.ofNat i) &&& 1).toUInt8 = bit (x.toNat.testBit i) := by
  have hone : ((x >>> UInt64.ofNat i) &&& 1).toNat = if x.toNat.testBit i then 1 else 0 := by
    rw [UInt64.toNat_and, UInt64.toNat_one, Nat.and_one_is_mod, UInt64.toNat_shiftRight,
      UInt64.toNat_ofNat', Nat.mod_eq_of_lt (a := i) (by omega), Nat.mod_eq_of_lt hi,
      Nat.testBit_eq_decide_div_mod_eq, Nat.shiftRight_eq_div_pow]
    rcases Nat.mod_two_eq_zero_or_one (x.toNat / 2 ^ i) with h | h <;> simp [h]
  rw [← UInt8.toNat_inj, UInt64.toNat_toUInt8, hone]
  cases x.toNat.testBit i <;> rfl

/-! ## One bit of a word -/

theorem toNat_one_shift {k : ℕ} (hk : k < 64) : (1 <<< UInt64.ofNat k : UInt64).toNat = 2 ^ k := by
  have hlt : 2 ^ k < 2 ^ 64 := Nat.pow_lt_pow_right (by decide) hk
  rw [UInt64.toNat_shiftLeft, UInt64.toNat_ofNat', Nat.mod_eq_of_lt (a := k) (by omega),
    Nat.mod_eq_of_lt hk, UInt64.toNat_one, Nat.one_shiftLeft, Nat.mod_eq_of_lt hlt]

theorem and_one_shift_ne_zero (x : UInt64) {k : ℕ} (hk : k < 64) :
    x &&& (1 <<< UInt64.ofNat k) ≠ 0 ↔ x.toNat.testBit k = true := by
  rw [ne_eq, ← UInt64.toNat_inj, UInt64.toNat_and, toNat_one_shift hk, UInt64.toNat_zero,
    Nat.and_two_pow]
  cases x.toNat.testBit k <;> simp

end BloblyEmb.Bits
