import BloblyEmb.E2e.Profile
import Mathlib.Data.List.Nodup
import Mathlib.Data.Nat.Bitwise

/-!
# What the CRC detects

The CRC of a frame is a remainder: a shift of it is linear in exclusive or, and no shift loses a
bit. So no change of one byte, and none of eight bits that follow one another, leaves the CRC as it
was.
-/
namespace BloblyEmb.E2e

/-! ## Shifts of the remainder -/

def crcShift (c : UInt8) : UInt8 := if c &&& 0x80 ≠ 0 then (c <<< 1) ^^^ 0x1D else c <<< 1

/-- The remainder after a byte. -/
def crcByte (c : UInt8) : UInt8 := crcShift^[8] c

theorem crcUpdate_eq (crc b : UInt8) : crcUpdate crc b = crcByte (crc ^^^ b) := rfl

theorem high_bit (c : UInt8) : c &&& 0x80 ≠ 0 ↔ c.toBitVec.msb = true := by
  have hall : ∀ n : Fin 256, UInt8.ofFin n &&& 0x80 ≠ 0 ↔ (UInt8.ofFin n).toBitVec.msb = true := by
    decide +kernel
  exact hall c.toFin

theorem xor_cancel (a b p : UInt8) : (a ^^^ p) ^^^ (b ^^^ p) = a ^^^ b := by
  rw [UInt8.xor_assoc, UInt8.xor_comm b p, ← UInt8.xor_assoc p, UInt8.xor_self, UInt8.zero_xor]

theorem crcShift_xor (a b : UInt8) : crcShift (a ^^^ b) = crcShift a ^^^ crcShift b := by
  have hshift : (a ^^^ b) <<< 1 = a <<< 1 ^^^ b <<< 1 := by
    apply UInt8.toBitVec_inj.mp
    simp [BitVec.shiftLeft_xor_distrib]
  simp only [crcShift, high_bit, UInt8.toBitVec_xor, BitVec.msb_xor, hshift]
  cases a.toBitVec.msb <;> cases b.toBitVec.msb <;> simp
  · ac_rfl
  · ac_rfl
  · exact (xor_cancel _ _ _).symm

theorem iterate_xor (n : ℕ) (a b : UInt8) :
    crcShift^[n] (a ^^^ b) = crcShift^[n] a ^^^ crcShift^[n] b := by
  induction n with
  | zero => rfl
  | succ n ih => simp only [Function.iterate_succ_apply', ih, crcShift_xor]

theorem crcByte_xor (a b : UInt8) : crcByte (a ^^^ b) = crcByte a ^^^ crcByte b := iterate_xor 8 a b

/-- A change of the last bits of a byte does not come out in the first bits of the next alone. -/
theorem crcByte_span : ∀ (b : Fin 8) (e : Fin 256), e ≠ 0 → e.val < 2 ^ (8 - b.val) →
    (crcByte (UInt8.ofFin e)).toNat % 2 ^ (8 - b.val) ≠ 0 := by
  decide +kernel

theorem crcByte_ne_zero {e : UInt8} (he : e ≠ 0) : crcByte e ≠ 0 := by
  intro hzero
  have hne : e.toFin ≠ 0 := by
    intro h
    exact he (UInt8.toFin_inj.mp h)
  refine crcByte_span 0 e.toFin hne e.toFin.isLt ?_
  rw [UInt8.ofFin_toFin, hzero]
  rfl

theorem crcByte_injective : Function.Injective crcByte := by
  intro a b h
  by_contra hne
  refine crcByte_ne_zero (e := a ^^^ b) ?_ ?_
  · simpa using hne
  · rw [crcByte_xor, h, UInt8.xor_self]

theorem crcUpdate_left {c c' : UInt8} (b : UInt8) (h : c ≠ c') : crcUpdate c b ≠ crcUpdate c' b := by
  intro heq
  exact h (UInt8.xor_left_inj b |>.mp (crcByte_injective heq))

theorem crcUpdate_right (c : UInt8) {b b' : UInt8} (h : b ≠ b') : crcUpdate c b ≠ crcUpdate c b' := by
  intro heq
  exact h (UInt8.xor_right_inj c |>.mp (crcByte_injective heq))

theorem foldl_ne {c c' : UInt8} (h : c ≠ c') (s : List UInt8) :
    s.foldl crcUpdate c ≠ s.foldl crcUpdate c' := by
  induction s generalizing c c' with
  | nil => exact h
  | cons x s ih => exact ih (crcUpdate_left x h)

/-! ## Bursts -/

/-- Bit `j` of a stream of bytes: the highest of a byte comes first. -/
def bitAt (s : List UInt8) (j : ℕ) : Bool := (s.getD (j / 8) 0).toNat.testBit (7 - j % 8)

theorem bitAt_cons (x : UInt8) (s : List UInt8) (j : ℕ) : bitAt (x :: s) (j + 8) = bitAt s j := by
  simp [bitAt]

theorem bitAt_head (x : UInt8) (s : List UInt8) {j : ℕ} (hj : j < 8) :
    bitAt (x :: s) j = x.toNat.testBit (7 - j) := by
  simp [bitAt, Nat.div_eq_of_lt hj, Nat.mod_eq_of_lt hj]

theorem byte_eq {x y : UInt8} (h : ∀ j < 8, x.toNat.testBit (7 - j) = y.toNat.testBit (7 - j)) :
    x = y := by
  apply UInt8.toNat_inj.mp
  apply Nat.eq_of_testBit_eq
  intro i
  by_cases hi : i < 8
  · simpa [show 7 - (7 - i) = i by omega] using h (7 - i) (by omega)
  · have hx : x.toNat < 2 ^ i := x.toNat_lt.trans_le (Nat.pow_le_pow_right (by decide) (by omega))
    have hy : y.toNat < 2 ^ i := y.toNat_lt.trans_le (Nat.pow_le_pow_right (by decide) (by omega))
    rw [Nat.testBit_lt_two_pow hx, Nat.testBit_lt_two_pow hy]

theorem stream_eq {s s' : List UInt8} (hlen : s.length = s'.length)
    (h : ∀ j, bitAt s j = bitAt s' j) : s = s' := by
  induction s generalizing s' with
  | nil => exact (List.length_eq_zero_iff.mp hlen.symm).symm
  | cons x s ih =>
    cases s' with
    | nil => simp at hlen
    | cons y s' =>
      have hhead : x = y := by
        apply byte_eq
        intro j hj
        rw [← bitAt_head x s hj, ← bitAt_head y s' hj, h]
      have htail : s = s' := by
        apply ih (by simpa using hlen)
        intro j
        rw [← bitAt_cons x s, ← bitAt_cons y s', h]
      rw [hhead, htail]

/-- Two bytes after each other, in which eight bits that follow one another changed. -/
theorem crcUpdate_two {b : ℕ} (hb : b < 8) (c : UInt8) {x x' y y' : UInt8}
    (hx : ∀ j < b, x.toNat.testBit (7 - j) = x'.toNat.testBit (7 - j))
    (hy : ∀ j < 8, b ≤ j → y.toNat.testBit (7 - j) = y'.toNat.testBit (7 - j))
    (hne : x ≠ x' ∨ y ≠ y') :
    crcUpdate (crcUpdate c x) y ≠ crcUpdate (crcUpdate c x') y' := by
  by_cases hxx : x = x'
  · rw [← hxx]
    exact crcUpdate_right _ (hne.resolve_left (not_not.mpr hxx))
  · intro heq
    have hlow : (x ^^^ x').toNat < 2 ^ (8 - b) := by
      apply Nat.lt_pow_two_of_testBit
      intro i hi
      rw [UInt8.toNat_xor, Nat.testBit_xor]
      by_cases hi8 : i < 8
      · have hbit := hx (7 - i) (by omega)
        rw [show 7 - (7 - i) = i by omega] at hbit
        simp [hbit]
      · have hlt : ∀ z : UInt8, z.toNat.testBit i = false := by
          intro z
          apply Nat.testBit_lt_two_pow
          exact z.toNat_lt.trans_le (Nat.pow_le_pow_right (by decide) (by omega))
        simp [hlt]
    have hhigh : (y ^^^ y').toNat % 2 ^ (8 - b) = 0 := by
      apply Nat.eq_of_testBit_eq
      intro i
      rw [Nat.testBit_mod_two_pow, UInt8.toNat_xor, Nat.testBit_xor, Nat.zero_testBit]
      by_cases hi : i < 8 - b
      · have hbit := hy (7 - i) (by omega) (by omega)
        rw [show 7 - (7 - i) = i by omega] at hbit
        simp [hbit]
      · simp [hi]
    have hinner : crcUpdate c x ^^^ y = crcUpdate c x' ^^^ y' := crcByte_injective heq
    have hbyte : crcByte (x ^^^ x') = y ^^^ y' := by
      have hsum : crcUpdate c x ^^^ crcUpdate c x' = y ^^^ y' := by
        calc crcUpdate c x ^^^ crcUpdate c x'
            = (crcUpdate c x ^^^ y) ^^^ (crcUpdate c x' ^^^ y) := (xor_cancel _ _ y).symm
          _ = (y' ^^^ crcUpdate c x') ^^^ (y ^^^ crcUpdate c x') := by
              rw [hinner, UInt8.xor_comm y', UInt8.xor_comm y]
          _ = y ^^^ y' := by rw [xor_cancel, UInt8.xor_comm]
      rw [← hsum, crcUpdate_eq, crcUpdate_eq, ← crcByte_xor, UInt8.xor_comm c x,
        UInt8.xor_comm c x', xor_cancel]
    refine crcByte_span ⟨b, hb⟩ (x ^^^ x').toFin ?_ hlow ?_
    · intro hzero
      have hxor : x ^^^ x' = 0 := UInt8.toFin_inj.mp hzero
      exact hxx (by simpa using hxor)
    · rw [UInt8.ofFin_toFin, hbyte]
      exact hhigh

/-- Two streams that differ in eight bits that follow one another do not have the same CRC. -/
theorem burst_ne {s s' : List UInt8} (b : ℕ) (hlen : s.length = s'.length) (hne : s ≠ s')
    (h : ∀ j, j < b ∨ b + 8 ≤ j → bitAt s j = bitAt s' j) (c : UInt8) :
    s.foldl crcUpdate c ≠ s'.foldl crcUpdate c := by
  induction s generalizing s' b c with
  | nil => exact absurd (List.length_eq_zero_iff.mp hlen.symm).symm hne
  | cons x s ih =>
    cases s' with
    | nil => simp at hlen
    | cons x' s' =>
      have hlen' : s.length = s'.length := by simpa using hlen
      have htail : ∀ j, j + 8 < b ∨ b ≤ j → bitAt s j = bitAt s' j := by
        intro j hj
        rw [← bitAt_cons x s, ← bitAt_cons x' s']
        exact h (j + 8) (by omega)
      by_cases hb : 8 ≤ b
      · have hhead : x = x' := by
          apply byte_eq
          intro j hj
          rw [← bitAt_head x s hj, ← bitAt_head x' s' hj]
          exact h j (by omega)
        subst hhead
        refine ih (b - 8) hlen' (by simpa using hne) ?_ _
        intro j hj
        exact htail j (by omega)
      · have hx : ∀ j < b, x.toNat.testBit (7 - j) = x'.toNat.testBit (7 - j) := by
          intro j hj
          rw [← bitAt_head x s (by omega), ← bitAt_head x' s' (by omega)]
          exact h j (.inl hj)
        cases s with
        | nil =>
          have hnil : s' = [] := List.length_eq_zero_iff.mp hlen'.symm
          subst hnil
          exact crcUpdate_right c (by simpa using hne)
        | cons y t =>
          cases s' with
          | nil => simp at hlen'
          | cons y' t' =>
            have hrest : t = t' := by
              apply stream_eq (by simpa using hlen')
              intro j
              rw [← bitAt_cons y t, ← bitAt_cons y' t']
              exact htail (j + 8) (by omega)
            subst hrest
            simp only [List.foldl_cons]
            refine foldl_ne (crcUpdate_two (b := b) (by omega) c hx ?_ ?_) t
            · intro j hj hbj
              rw [← bitAt_head y t hj, ← bitAt_head y' t hj]
              exact htail j (.inr hbj)
            · by_contra hboth
              rw [not_or, not_not, not_not] at hboth
              exact hne (by rw [hboth.1, hboth.2])

/-! ## Frames -/

/-- The bytes of a frame that the CRC covers. -/
def Layout.stream (l : Layout) (data : ℕ → UInt8) (dlc : ℕ) : List UInt8 :=
  ((List.range dlc).filter l.covers).map data

theorem compute_eq (data : ℕ → UInt8) (dlc : ℕ) (l : Layout) :
    compute data dlc l = (l.stream data dlc).foldl crcUpdate
      (crcUpdate (crcUpdate 0 l.dataId.toUInt8) (l.dataId >>> 8).toUInt8) := by
  simp only [compute, Layout.stream, List.foldl_map, List.foldl_filter]

theorem Layout.stream_congr {l : Layout} {data data' : ℕ → UInt8} {dlc : ℕ}
    (h : ∀ i < dlc, l.covers i = true → data' i = data i) :
    l.stream data' dlc = l.stream data dlc := by
  apply List.map_congr_left
  intro i hi
  rw [List.mem_filter, List.mem_range] at hi
  exact h i hi.1 hi.2

theorem compute_congr {l : Layout} {data data' : ℕ → UInt8} {dlc : ℕ}
    (h : ∀ i < dlc, l.covers i = true → data' i = data i) :
    compute data' dlc l = compute data dlc l := by
  rw [compute_eq, compute_eq, Layout.stream_congr h]

/-- How a frame is corrupted: in one covered byte, in the CRC, or in at most eight bits of the
covered stream that follow one another. -/
inductive Corrupted (l : Layout) (dlc : ℕ) (data data' : ℕ → UInt8) : Prop
  | byte (i : ℕ) (hi : i < dlc) (hcov : l.covers i = true) (hne : data' i ≠ data i)
      (hsame : ∀ j ≠ i, data' j = data j)
  | crc (hne : data' l.crcPos ≠ data l.crcPos) (hsame : ∀ j ≠ l.crcPos, data' j = data j)
  | burst (b : ℕ) (hcrc : data' l.crcPos = data l.crcPos)
      (hne : l.stream data dlc ≠ l.stream data' dlc)
      (hsame : ∀ j, j < b ∨ b + 8 ≤ j →
        bitAt (l.stream data dlc) j = bitAt (l.stream data' dlc) j)

/-- A frame in which one covered byte changed has its bits changed in the place of that byte. -/
theorem Layout.stream_byte {l : Layout} {data data' : ℕ → UInt8} {dlc i : ℕ} (hi : i < dlc)
    (hcov : l.covers i = true) (hne : data' i ≠ data i) (hsame : ∀ j ≠ i, data' j = data j) :
    l.stream data dlc ≠ l.stream data' dlc ∧ ∃ b, ∀ j, j < b ∨ b + 8 ≤ j →
      bitAt (l.stream data dlc) j = bitAt (l.stream data' dlc) j := by
  have hmem : i ∈ (List.range dlc).filter l.covers := by simp [hi, hcov]
  have hnodup : ((List.range dlc).filter l.covers).Nodup := List.nodup_range.filter _
  constructor
  · intro h
    exact hne ((List.map_inj_left.mp h i hmem).symm)
  · refine ⟨8 * ((List.range dlc).filter l.covers).idxOf i, ?_⟩
    intro j hj
    have hat : (l.stream data dlc).getD (j / 8) 0 = (l.stream data' dlc).getD (j / 8) 0 := by
      simp only [Layout.stream, List.getD_eq_getElem?_getD, List.getElem?_map]
      cases hget : ((List.range dlc).filter l.covers)[j / 8]? with
      | none => rfl
      | some k =>
        have hk : k ≠ i := by
          rintro rfl
          obtain ⟨hlt, hval⟩ := List.getElem?_eq_some_iff.mp hget
          have hidx := hnodup.idxOf_getElem (j / 8) hlt
          rw [hval] at hidx
          omega
        simp [hsame k hk]
    simp only [bitAt, hat]

theorem Corrupted.crc_ne {l : Layout} {dlc : ℕ} {data data' : ℕ → UInt8}
    (h : Corrupted l dlc data data') (hcrc : data l.crcPos = compute data dlc l) :
    data' l.crcPos ≠ compute data' dlc l := by
  have hstream : ∀ b, l.stream data dlc ≠ l.stream data' dlc →
      (∀ j, j < b ∨ b + 8 ≤ j → bitAt (l.stream data dlc) j = bitAt (l.stream data' dlc) j) →
      compute data dlc l ≠ compute data' dlc l := by
    intro b hne hsame
    rw [compute_eq, compute_eq]
    exact burst_ne b (by simp [Layout.stream]) hne hsame _
  cases h with
  | byte i hi hcov hne hsame =>
    obtain ⟨hdiff, b, hbits⟩ := Layout.stream_byte hi hcov hne hsame
    have hpos : l.crcPos ≠ i := by
      rintro rfl
      simp [Layout.covers] at hcov
    rw [hsame _ hpos, hcrc]
    exact hstream b hdiff hbits
  | crc hne hsame =>
    have hkept : compute data' dlc l = compute data dlc l := by
      apply compute_congr
      intro i _ hcov
      apply hsame
      rintro rfl
      simp [Layout.covers] at hcov
    rw [hkept, ← hcrc]
    exact hne
  | burst b hpos hne hsame =>
    rw [hpos, hcrc]
    exact hstream b hne hsame

/-- A frame with a wrong CRC is an error, and says nothing of the sequence. -/
theorem RxState.checkEx_of_ne (r : RxState) {data : ℕ → UInt8} {dlc : ℕ} {l : Layout}
    (h : data l.crcPos ≠ compute data dlc l) : r.checkEx data dlc l = (r, .crcError) := by
  simp [RxState.checkEx, h]

end BloblyEmb.E2e
