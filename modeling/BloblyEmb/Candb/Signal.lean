import BloblyEmb.Lib.Bits

/-!
# Signals in the payload of a frame

A CAN database says of each signal where its bits are (`tools/candb`): from a start bit upwards, or,
in the byte order of Motorola, from the highest bit down a byte and on from the top of the next. Reads,
writes and the test of ownership each walk the bits, and so do the accessors that are generated from
the database (`tools/dbc2cfg`).
-/
namespace BloblyEmb.Candb

open Bits (bit isSet)

inductive ByteOrder where
  | littleEndian
  | bigEndian
deriving DecidableEq

/-- Where the bits of a signal are. -/
structure Signal where
  startBit : ℕ
  length : ℕ
  byteOrder : ByteOrder

/-- The bit after `pos` in the order of Motorola. -/
def sawtooth (pos : ℕ) : ℕ := if pos % 8 = 0 then pos + 15 else pos - 1

namespace Signal

def rawValue (s : Signal) (data : List UInt8) : UInt64 :=
  match s.byteOrder with
  | .littleEndian =>
    (List.range s.length).foldl (fun raw i =>
      let g := s.startBit + i
      if data.length ≤ g / 8 then raw
      else raw ||| ((Bits.get data g).toUInt64 <<< UInt64.ofNat i)) 0
  | .bigEndian =>
    ((List.range s.length).foldl (fun (raw, pos) _ =>
      let raw : UInt64 := raw <<< 1
      let raw := if pos / 8 < data.length then raw ||| (Bits.get data pos).toUInt64 else raw
      (raw, sawtooth pos)) (0, s.startBit)).1

def setRaw (s : Signal) (data : List UInt8) (raw : UInt64) : List UInt8 :=
  match s.byteOrder with
  | .littleEndian =>
    (List.range s.length).foldl (fun data i =>
      let g := s.startBit + i
      if data.length ≤ g / 8 then data
      else Bits.put data g ((raw >>> UInt64.ofNat i) &&& 1).toUInt8) data
  | .bigEndian =>
    ((List.range s.length).foldl (fun (data, pos) i =>
      let x := ((raw >>> UInt64.ofNat (s.length - 1 - i)) &&& 1).toUInt8
      let data := if pos / 8 < data.length then Bits.put data pos x else data
      (data, sawtooth pos)) (data, s.startBit)).1

/-- Walks `n` bits from `pos` on. -/
def meets (g : ℕ) : ℕ → ℕ → Bool
  | 0, _ => false
  | n + 1, pos => if pos = g then true else meets g n (sawtooth pos)

def owns (s : Signal) (g : ℕ) : Bool :=
  match s.byteOrder with
  | .littleEndian => decide (s.startBit ≤ g ∧ g < s.startBit + s.length)
  | .bigEndian => meets g s.length s.startBit

end Signal

/-! ## The accessors that are generated -/

/-- A payload of CAN FD. -/
abbrev Payload := Vector UInt8 64

/-- What `emit_raw` writes. -/
def emitRaw (s : Signal) (data : Payload) : UInt64 :=
  match s.byteOrder with
  | .bigEndian =>
    ((List.range s.length).foldl (fun (raw, pos) _ =>
      let raw : UInt64 := raw <<< 1
      let raw :=
        if h : pos / 8 < 64 then raw ||| ((data[pos / 8] >>> UInt8.ofNat (pos % 8)) &&& 1).toUInt64
        else raw
      (raw, sawtooth pos)) (0, s.startBit)).1
  | .littleEndian =>
    (List.range s.length).foldl (fun raw i =>
      let g := s.startBit + i
      if h : 64 ≤ g / 8 then raw
      else
        let x := (data[g / 8] >>> UInt8.ofNat (g % 8)) &&& 1
        raw ||| (x.toUInt64 <<< UInt64.ofNat i)) 0

/-- What `emit_set_raw` writes. -/
def emitSetRaw (s : Signal) (data : Payload) (raw : UInt64) : Payload :=
  match s.byteOrder with
  | .bigEndian =>
    ((List.range s.length).foldl (fun ((data : Payload), pos) i =>
      let x := ((raw >>> UInt64.ofNat (s.length - 1 - i)) &&& 1).toUInt8
      let data :=
        if h : pos / 8 < 64 then
          let mask : UInt8 := 1 <<< UInt8.ofNat (pos % 8)
          data.set (pos / 8) ((data[pos / 8] &&& ~~~mask) ||| (x <<< UInt8.ofNat (pos % 8)))
        else data
      (data, sawtooth pos)) (data, s.startBit)).1
  | .littleEndian =>
    (List.range s.length).foldl (fun (data : Payload) i =>
      let g := s.startBit + i
      if h : 64 ≤ g / 8 then data
      else
        let mask : UInt8 := 1 <<< UInt8.ofNat (g % 8)
        let x := ((raw >>> UInt64.ofNat i) &&& 1).toUInt8
        data.set (g / 8) ((data[g / 8] &&& ~~~mask) ||| (x <<< UInt8.ofNat (g % 8)))) data

/-! ## The walk -/

/-- The bits in the order of Motorola, as their numbers in that of Intel and back. -/
def mirror (p : ℕ) : ℕ := 8 * (p / 8) + (7 - p % 8)

@[simp] theorem mirror_mirror (p : ℕ) : mirror (mirror p) = p := by
  unfold mirror
  omega

theorem mirror_inj {p q : ℕ} (h : mirror p = mirror q) : p = q := by
  rw [← mirror_mirror p, h, mirror_mirror]

/-- The sawtooth is a straight line for the mirrored numbers. -/
theorem sawtooth_mirror (r : ℕ) : sawtooth (mirror r) = mirror (r + 1) := by
  unfold sawtooth mirror
  split <;> omega

namespace Signal

variable (s : Signal)

/-- Where bit `k` of the raw value is. -/
def place (k : ℕ) : ℕ :=
  match s.byteOrder with
  | .littleEndian => s.startBit + k
  | .bigEndian => mirror (mirror s.startBit + (s.length - 1 - k))

theorem place_inj {i j : ℕ} (hi : i < s.length) (hj : j < s.length) (h : s.place i = s.place j) :
    i = j := by
  unfold place at h
  cases horder : s.byteOrder with
  | littleEndian =>
    simp only [horder] at h
    omega
  | bigEndian =>
    simp only [horder] at h
    have hmirror := mirror_inj h
    omega

theorem meets_iff (g : ℕ) (n r : ℕ) :
    meets g n (mirror r) = true ↔ ∃ i < n, mirror (r + i) = g := by
  induction n generalizing r with
  | zero => simp [meets]
  | succ n ih =>
    rw [meets]
    by_cases hhere : mirror r = g
    · rw [if_pos hhere]
      exact iff_of_true rfl ⟨0, Nat.succ_pos n, hhere⟩
    · rw [if_neg hhere, sawtooth_mirror, ih]
      constructor
      · rintro ⟨i, hi, rfl⟩
        exact ⟨i + 1, Nat.succ_lt_succ hi, by rw [Nat.add_right_comm, Nat.add_assoc]⟩
      · rintro ⟨i, hi, rfl⟩
        cases i with
        | zero => exact absurd rfl hhere
        | succ i => exact ⟨i, Nat.lt_of_succ_lt_succ hi, by rw [Nat.add_right_comm, Nat.add_assoc]⟩

/-- A signal owns the places of its bits. -/
theorem owns_iff (g : ℕ) : s.owns g = true ↔ ∃ k < s.length, s.place k = g := by
  unfold owns place
  cases s.byteOrder with
  | littleEndian =>
    simp only [decide_eq_true_eq]
    constructor
    · rintro ⟨hle, hlt⟩
      exact ⟨g - s.startBit, by omega, by omega⟩
    · rintro ⟨k, hk, rfl⟩
      omega
  | bigEndian =>
    simp only
    rw [← mirror_mirror s.startBit, meets_iff, mirror_mirror]
    constructor
    · rintro ⟨i, hi, rfl⟩
      exact ⟨s.length - 1 - i, by omega, by congr 2; omega⟩
    · rintro ⟨k, hk, rfl⟩
      exact ⟨s.length - 1 - k, by omega, rfl⟩

/-! ## Reads -/

variable (data : List UInt8) {s}

theorem testBit_read_up (n start : ℕ) (hn : n ≤ 64) (j : ℕ) :
    ((List.range n).foldl (fun raw i =>
      let g := start + i
      if data.length ≤ g / 8 then raw
      else raw ||| ((Bits.get data g).toUInt64 <<< UInt64.ofNat i)) (0 : UInt64)).toNat.testBit j =
      (decide (j < n) && isSet data (start + j)) := by
  induction n with
  | zero => simp
  | succ n ih =>
    specialize ih (Nat.le_of_succ_le hn)
    rw [List.range_succ, List.foldl_append, List.foldl_cons, List.foldl_nil]
    simp only
    by_cases hj : j < 64
    · split
      case isTrue hend =>
        rw [ih]
        by_cases hlast : j = n
        · rw [hlast, Bits.isSet_of_le hend, Bool.and_false, Bool.and_false]
        · rw [show decide (j < n + 1) = decide (j < n) by simp; omega]
      case isFalse =>
        rw [Bits.get_eq, Bits.testBit_or_at _ _ (Nat.lt_of_succ_le hn) hj, ih]
        rcases Nat.lt_trichotomy j n with h | rfl | h
        · simp [h, Nat.ne_of_lt h, Nat.lt_succ_of_lt h]
        · simp
        · simp [Nat.ne_of_gt h, Nat.not_lt_of_lt h, Nat.not_lt_of_le (Nat.succ_le_of_lt h)]
    · rw [Bits.testBit_of_le _ (Nat.le_of_not_lt hj), decide_eq_false (by omega), Bool.false_and]

theorem read_down (n r : ℕ) (hn : n ≤ 64) :
    ((List.range n).foldl (fun (x : UInt64 × ℕ) _ =>
      let raw : UInt64 := x.1 <<< 1
      let raw := if x.2 / 8 < data.length then raw ||| (Bits.get data x.2).toUInt64 else raw
      (raw, sawtooth x.2)) (0, mirror r)).2 = mirror (r + n) ∧
    ∀ j, ((List.range n).foldl (fun (x : UInt64 × ℕ) _ =>
      let raw : UInt64 := x.1 <<< 1
      let raw := if x.2 / 8 < data.length then raw ||| (Bits.get data x.2).toUInt64 else raw
      (raw, sawtooth x.2)) (0, mirror r)).1.toNat.testBit j =
        (decide (j < n) && isSet data (mirror (r + (n - 1 - j)))) := by
  induction n with
  | zero => simp
  | succ n ih =>
    obtain ⟨hpos, hraw⟩ := ih (Nat.le_of_succ_le hn)
    rw [List.range_succ, List.foldl_append, List.foldl_cons, List.foldl_nil]
    constructor
    · simp only [hpos]
      rw [sawtooth_mirror, Nat.add_assoc]
    · intro j
      simp only [hpos]
      have hin : ∀ x : UInt64,
          (if mirror (r + n) / 8 < data.length then
            (x <<< 1) ||| (Bits.get data (mirror (r + n))).toUInt64 else x <<< 1) =
          (x <<< 1) ||| (bit (isSet data (mirror (r + n)))).toUInt64 := by
        intro x
        split
        · rw [Bits.get_eq]
        · rename_i hend
          rw [Bits.isSet_of_le (Nat.le_of_not_lt hend)]
          simp [bit]
      rw [hin]
      by_cases hj : j < 64
      · rw [Bits.testBit_shift_in _ _ hj]
        cases j with
        | zero => simp
        | succ j =>
          rw [if_neg (Nat.succ_ne_zero j), Nat.add_sub_cancel, hraw,
            show n + 1 - 1 - (j + 1) = n - 1 - j by omega]
          simp only [Nat.add_lt_add_iff_right]
      · rw [Bits.testBit_of_le _ (Nat.le_of_not_lt hj), decide_eq_false (by omega), Bool.false_and]

/-- The bits of the raw value, each from its place. -/
theorem testBit_rawValue (hlen : s.length ≤ 64) (j : ℕ) :
    (s.rawValue data).toNat.testBit j = (decide (j < s.length) && isSet data (s.place j)) := by
  unfold rawValue place
  cases s.byteOrder with
  | littleEndian => exact testBit_read_up data s.length s.startBit hlen j
  | bigEndian =>
    have h := (read_down data s.length (mirror s.startBit) hlen).2 j
    rw [mirror_mirror] at h
    exact h

/-! ## Writes -/

variable (raw : UInt64)

theorem write_up (n start : ℕ) (hn : n ≤ 64) :
    (List.range n).foldl (fun data i =>
      let g := start + i
      if data.length ≤ g / 8 then data
      else Bits.put data g ((raw >>> UInt64.ofNat i) &&& 1).toUInt8) data =
      Bits.putAll (fun i => start + i) (fun i => raw.toNat.testBit i) n data := by
  induction n with
  | zero => rfl
  | succ n ih =>
    rw [List.range_succ, List.foldl_append, ih (Nat.le_of_succ_le hn), Bits.putAll_succ,
      List.foldl_cons, List.foldl_nil, Bits.bit_of_shift raw (Nat.lt_of_succ_le hn)]
    simp only
    split
    case isTrue hend => rw [Bits.put_of_le hend]
    case isFalse => rfl

theorem write_down (n m r : ℕ) (hn : n ≤ m) (hm : m ≤ 64) :
    (List.range n).foldl (fun (x : List UInt8 × ℕ) i =>
      let y := ((raw >>> UInt64.ofNat (m - 1 - i)) &&& 1).toUInt8
      let data := if x.2 / 8 < x.1.length then Bits.put x.1 x.2 y else x.1
      (data, sawtooth x.2)) (data, mirror r) =
      (Bits.putAll (fun i => mirror (r + i)) (fun i => raw.toNat.testBit (m - 1 - i)) n data,
        mirror (r + n)) := by
  induction n with
  | zero => rfl
  | succ n ih =>
    rw [List.range_succ, List.foldl_append, ih (Nat.le_of_succ_le hn), Bits.putAll_succ,
      List.foldl_cons, List.foldl_nil, Bits.bit_of_shift raw (by omega), sawtooth_mirror,
      Nat.add_assoc]
    simp only
    split
    case isTrue => rfl
    case isFalse hend => rw [Bits.put_of_le (Nat.le_of_not_lt hend)]

/-- A signal of at most 64 bits that lies in a payload. -/
structure Fits (s : Signal) (data : List UInt8) : Prop where
  length : s.length ≤ 64
  inside : ∀ g, s.owns g = true → g / 8 < data.length

variable {data}

theorem setRaw_up (horder : s.byteOrder = .littleEndian) (hlen : s.length ≤ 64) :
    s.setRaw data raw =
      Bits.putAll (fun i => s.startBit + i) (fun i => raw.toNat.testBit i) s.length data := by
  simp only [setRaw, horder]
  exact write_up data raw s.length s.startBit hlen

theorem setRaw_down (horder : s.byteOrder = .bigEndian) (hlen : s.length ≤ 64) :
    s.setRaw data raw =
      Bits.putAll (fun i => mirror (mirror s.startBit + i))
        (fun i => raw.toNat.testBit (s.length - 1 - i)) s.length data := by
  simp only [setRaw, horder]
  have h := write_down data raw s.length s.length (mirror s.startBit) (Nat.le_refl _) hlen
  rw [mirror_mirror] at h
  exact congrArg Prod.fst h

theorem length_setRaw (hlen : s.length ≤ 64) : (s.setRaw data raw).length = data.length := by
  cases horder : s.byteOrder with
  | littleEndian => rw [setRaw_up raw horder hlen, Bits.length_putAll]
  | bigEndian => rw [setRaw_down raw horder hlen, Bits.length_putAll]

/-- What the signal does not own stays. -/
theorem isSet_setRaw_of_not_owns (hlen : s.length ≤ 64) {g : ℕ} (h : s.owns g = false) :
    isSet (s.setRaw data raw) g = isSet data g := by
  have hno : ∀ k < s.length, s.place k ≠ g := by
    intro k hk hg
    rw [(s.owns_iff g).mpr ⟨k, hk, hg⟩] at h
    cases h
  cases horder : s.byteOrder with
  | littleEndian =>
    rw [setRaw_up raw horder hlen]
    apply Bits.isSet_putAll_of_ne
    intro i hi
    simpa only [place, horder] using hno i hi
  | bigEndian =>
    rw [setRaw_down raw horder hlen]
    apply Bits.isSet_putAll_of_ne
    intro i hi
    have hplace := hno (s.length - 1 - i) (by omega)
    simp only [place, horder] at hplace
    rwa [show s.length - 1 - (s.length - 1 - i) = i by omega] at hplace

/-- Every bit of the raw value goes to its place. -/
theorem isSet_setRaw (h : s.Fits data) {k : ℕ} (hk : k < s.length) :
    isSet (s.setRaw data raw) (s.place k) = raw.toNat.testBit k := by
  have hroom : s.place k / 8 < data.length := h.inside _ ((s.owns_iff _).mpr ⟨k, hk, rfl⟩)
  cases horder : s.byteOrder with
  | littleEndian =>
    rw [setRaw_up raw horder h.length]
    simp only [place, horder] at hroom ⊢
    exact Bits.isSet_putAll (fun i => s.startBit + i) _ data (fun i _ j _ hij => by omega) hk hroom
  | bigEndian =>
    rw [setRaw_down raw horder h.length]
    simp only [place, horder] at hroom ⊢
    have hput := Bits.isSet_putAll (fun i => mirror (mirror s.startBit + i))
      (fun i => raw.toNat.testBit (s.length - 1 - i)) data
      (fun i _ j _ hij => Nat.add_left_cancel (mirror_inj hij))
      (show s.length - 1 - k < s.length by omega) hroom
    rwa [show s.length - 1 - (s.length - 1 - k) = k by omega] at hput

/-- What is written is read back. -/
theorem rawValue_setRaw (h : s.Fits data) :
    (s.rawValue (s.setRaw data raw)).toNat = raw.toNat % 2 ^ s.length := by
  apply Nat.eq_of_testBit_eq
  intro j
  rw [testBit_rawValue _ h.length, Nat.testBit_mod_two_pow]
  by_cases hj : j < s.length
  · rw [isSet_setRaw raw h hj]
  · simp [hj]

/-- A signal owns just the bits that some value changes. -/
theorem owns_iff_changes (h : s.Fits data) (g : ℕ) :
    s.owns g = true ↔ ∃ raw, isSet (s.setRaw data raw) g ≠ isSet data g := by
  constructor
  · intro howns
    obtain ⟨k, hk, rfl⟩ := (s.owns_iff g).mp howns
    cases hbit : isSet data (s.place k) with
    | true =>
      refine ⟨0, ?_⟩
      rw [isSet_setRaw 0 h hk, UInt64.toNat_zero, Nat.zero_testBit]
      decide
    | false =>
      refine ⟨UInt64.ofNat (2 ^ k), ?_⟩
      have hk64 : k < 64 := Nat.lt_of_lt_of_le hk h.length
      rw [isSet_setRaw _ h hk, UInt64.toNat_ofNat',
        Nat.mod_eq_of_lt (Nat.pow_lt_pow_right (by decide) hk64), Nat.testBit_two_pow_self]
      decide
  · rintro ⟨raw, hne⟩
    by_contra hno
    exact hne (isSet_setRaw_of_not_owns raw h.length (Bool.not_eq_true _ ▸ hno))

/-- Signals without a common bit do not touch each other. -/
theorem rawValue_setRaw_of_disjoint {t : Signal} (hs : s.length ≤ 64) (ht : t.length ≤ 64)
    (hdisjoint : ∀ g, ¬(s.owns g = true ∧ t.owns g = true)) :
    t.rawValue (s.setRaw data raw) = t.rawValue data := by
  rw [← UInt64.toNat_inj]
  apply Nat.eq_of_testBit_eq
  intro j
  rw [testBit_rawValue _ ht, testBit_rawValue _ ht]
  by_cases hj : j < t.length
  · have hno : s.owns (t.place j) = false := by
      rw [← Bool.not_eq_true]
      exact fun h => hdisjoint _ ⟨h, (t.owns_iff _).mpr ⟨j, hj, rfl⟩⟩
    rw [isSet_setRaw_of_not_owns raw hs hno]
  · simp [hj]

/-! ## The accessors do the same -/

theorem emitRaw_eq (s : Signal) (v : Payload) : emitRaw s v = s.rawValue v.toList := by
  have hlength : v.toList.length = 64 := Vector.length_toList
  have hbyte : ∀ g (h : g / 8 < 64),
      (v[g / 8] >>> UInt8.ofNat (g % 8)) &&& 1 = Bits.get v.toList g := by
    intro g h
    rw [Bits.get, List.getD_eq_getElem _ _ (by rw [hlength]; exact h), Vector.getElem_toList]
  unfold emitRaw rawValue
  rw [hlength]
  cases s.byteOrder with
  | littleEndian =>
    simp only
    congr 1
    funext raw i
    split
    case isTrue => rfl
    case isFalse hend => rw [hbyte _ (Nat.lt_of_not_le hend)]
  | bigEndian =>
    simp only
    congr 2
    funext x i
    split
    case isTrue h => rw [hbyte _ h]
    case isFalse => rfl

theorem toList_emitSetRaw (s : Signal) (v : Payload) (raw : UInt64) :
    (emitSetRaw s v raw).toList = s.setRaw v.toList raw := by
  have hput : ∀ (v : Payload) g (h : g / 8 < 64) (x : UInt8),
      (v.set (g / 8) ((v[g / 8] &&& ~~~((1 : UInt8) <<< UInt8.ofNat (g % 8))) |||
        (x <<< UInt8.ofNat (g % 8)))).toList = Bits.put v.toList g x := by
    intro v g h x
    have hlength : v.toList.length = 64 := Vector.length_toList
    rw [Vector.toList_set, Bits.put, List.getD_eq_getElem _ _ (by rw [hlength]; exact h),
      Vector.getElem_toList]
  unfold emitSetRaw setRaw
  cases s.byteOrder with
  | littleEndian =>
    simp only
    refine (List.foldl_hom Vector.toList fun v i => ?_).symm
    simp only [Vector.length_toList]
    split
    case isTrue => rfl
    case isFalse hend => rw [hput _ _ (Nat.lt_of_not_le hend)]
  | bigEndian =>
    simp only
    refine congrArg Prod.fst
      (List.foldl_hom (fun x : Payload × ℕ => (x.1.toList, x.2)) fun x i => ?_).symm
    simp only [Vector.length_toList]
    split
    case isTrue h => rw [hput _ _ h]
    case isFalse => rfl

/-- A signal that lies in the payload is read back as it was written, modulo its width; a write
changes just the bits that it owns, none of a signal with other bits; and the generated accessors
read and write the same. -/
theorem raw_codec (s : Signal) (data : List UInt8) (raw : UInt64) (h : s.Fits data) :
    (s.rawValue (s.setRaw data raw)).toNat = raw.toNat % 2 ^ s.length ∧
      (s.setRaw data raw).length = data.length ∧
      (∀ g, s.owns g = true ↔ ∃ raw, isSet (s.setRaw data raw) g ≠ isSet data g) ∧
      (∀ t : Signal, t.Fits data → (∀ g, ¬(s.owns g = true ∧ t.owns g = true)) →
        t.rawValue (s.setRaw data raw) = t.rawValue data) ∧
      ∀ v : Payload, v.toList = data →
        emitRaw s v = s.rawValue data ∧ (emitSetRaw s v raw).toList = s.setRaw data raw := by
  refine ⟨rawValue_setRaw raw h, length_setRaw raw h.length, owns_iff_changes h, ?_, ?_⟩
  · intro t ht hdisjoint
    exact rawValue_setRaw_of_disjoint raw h.length ht.length hdisjoint
  · rintro v rfl
    exact ⟨emitRaw_eq s v, toList_emitSetRaw s v raw⟩

/-- A signal of twelve bits in the order of Motorola, from the top of the first byte on. -/
def torque : Signal := { startBit := 7, length := 12, byteOrder := .bigEndian }

theorem fits_torque (a b : UInt8) : torque.Fits [a, b] where
  length := by decide
  inside := by
    intro g hg
    obtain ⟨k, hk, rfl⟩ := (torque.owns_iff g).mp hg
    have hall : ∀ k < 12, torque.place k / 8 < 2 := by decide
    exact hall k hk

theorem raw_codec_torque :
    torque.Fits [0xff, 0xff] ∧
      (torque.rawValue (torque.setRaw [0xff, 0xff] 0x1abc)).toNat = 0xabc ∧
      torque.setRaw [0xff, 0xff] 0x1abc = [0xab, 0xcf] :=
  ⟨fits_torque _ _, (raw_codec torque [0xff, 0xff] 0x1abc (fits_torque _ _)).1, by decide⟩

end Signal

end BloblyEmb.Candb
