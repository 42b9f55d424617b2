import Mathlib.NumberTheory.LegendreSymbol.Basic
import Mathlib.Tactic.NormNum.Prime
import BloblyEmb.Lib.Edwards
import BloblyEmb.Lib.Primality
import BloblyEmb.Bcrypto.Points

/-!
# The curve

The integers modulo the prime are a field in which `-1` is a square and the constant of the curve is
not, so the sum of two points has no exceptions there. Extended coordinates stand for points, and the
ladder for multiples.
-/
namespace BloblyEmb.Bcrypto

open Limbs Edwards

/-! ## The field -/

section Primes

open Primality

/-- Each prime is certified by the smaller ones that it needs. -/
theorem prime_isPrime : Nat.Prime (2 ^ 255 - 19) := by
  have h₁ : Nat.Prime 2773320623 := by
    refine prime_of_factors 32 5 [2, 2437, 569003]
      (by decide) (by decide) ?_ (by decide) (by decide +kernel) (by decide +kernel)
    simp only [List.forall_mem_cons, List.not_mem_nil, false_imp_iff, implies_true, and_true]
    norm_num
  have h₂ : Nat.Prime 72106336199 := by
    refine prime_of_factors 37 7 [2, 13, 2773320623]
      (by decide) (by decide) ?_ (by decide) (by decide +kernel) (by decide +kernel)
    simp only [List.forall_mem_cons, List.not_mem_nil, false_imp_iff, implies_true, and_true, h₁]
    norm_num
  have h₃ : Nat.Prime 1919519569386763 := by
    refine prime_of_factors 51 2 [2, 3, 7, 19, 47, 47, 127, 8574133]
      (by decide) (by decide) ?_ (by decide) (by decide +kernel) (by decide +kernel)
    simp only [List.forall_mem_cons, List.not_mem_nil, false_imp_iff, implies_true, and_true]
    norm_num
  have h₄ : Nat.Prime 31757755568855353 := by
    refine prime_of_factors 55 10 [2, 2, 2, 3, 31, 107, 223, 4153, 430751]
      (by decide) (by decide) ?_ (by decide) (by decide +kernel) (by decide +kernel)
    simp only [List.forall_mem_cons, List.not_mem_nil, false_imp_iff, implies_true, and_true]
    norm_num
  have h₅ : Nat.Prime 75445702479781427272750846543864801 := by
    refine prime_of_factors 116 7 [2, 2, 2, 2, 2, 3, 3, 5, 5, 75707, 72106336199, 1919519569386763]
      (by decide) (by decide) ?_ (by decide) (by decide +kernel) (by decide +kernel)
    simp only [List.forall_mem_cons, List.not_mem_nil, false_imp_iff, implies_true, and_true,
      h₂, h₃]
    norm_num
  have h₆ :
      Nat.Prime 74058212732561358302231226437062788676166966415465897661863160754340907 := by
    refine prime_of_factors 236 2 [2, 3, 353, 57467, 132049, 1923133, 31757755568855353,
      75445702479781427272750846543864801]
      (by decide) (by decide) ?_ (by decide) (by decide +kernel) (by decide +kernel)
    simp only [List.forall_mem_cons, List.not_mem_nil, false_imp_iff, implies_true, and_true,
      h₄, h₅]
    norm_num
  refine prime_of_factors 255 2 [2, 2, 3, 65147,
    74058212732561358302231226437062788676166966415465897661863160754340907] (by decide) (by decide)
    ?_ (by decide) (by decide +kernel) (by decide +kernel)
  simp only [List.forall_mem_cons, List.not_mem_nil, false_imp_iff, implies_true, and_true, h₆]
  norm_num

end Primes

instance fact_isPrime : Fact (Nat.Prime (2 ^ 255 - 19)) := ⟨prime_isPrime⟩

theorem fp_eq_iff {x y : ℤ} : (x : Fp) = (y : Fp) ↔ x % prime = y % prime :=
  ZMod.intCast_eq_intCast_iff' x y _

/-- The constant of the curve, as a natural number. -/
def curveD : ℕ := gfd.num.toNat

/-- What the constants of the code are, modulo the prime: a root of `-1`, twice the constant of the
curve, which is no square by its power, and a point on the curve. -/
theorem constants : -1 % prime = gfi.num * gfi.num % prime ∧
    gfd2.num % prime = (gfd.num + gfd.num) % prime ∧ (curveD : ℤ) = gfd.num ∧
    (Primality.powMod (2 ^ 255 - 19) 255 curveD ((2 ^ 255 - 19) / 2) : ℤ) % prime = -1 % prime ∧
    (gfy.num * gfy.num - gfx.num * gfx.num) % prime =
      (1 + gfd.num * (gfx.num * gfx.num) * (gfy.num * gfy.num)) % prime := by
  decide +kernel

theorem gfi_square : (-1 : Fp) = gfi.toFp * gfi.toFp := by
  have h : ((-1 : ℤ) : Fp) = ((gfi.num * gfi.num : ℤ) : Fp) := fp_eq_iff.mpr constants.1
  simpa [Gf.toFp] using h

theorem gfd2_toFp : gfd2.toFp = gfd.toFp + gfd.toFp := by
  have h : ((gfd2.num : ℤ) : Fp) = ((gfd.num + gfd.num : ℤ) : Fp) := fp_eq_iff.mpr constants.2.1
  simpa [Gf.toFp] using h

theorem curveD_cast : (curveD : Fp) = gfd.toFp := by
  rw [Gf.toFp, ← constants.2.2.1, Int.cast_natCast]

theorem gfd_not_isSquare : ¬IsSquare gfd.toFp := by
  have hpow : gfd.toFp ^ ((2 ^ 255 - 19) / 2) = -1 := by
    have hbits : (2 ^ 255 - 19) / 2 < 2 ^ 255 := by decide
    rw [← curveD_cast, ← Primality.powMod_cast (2 ^ 255 - 19) hbits]
    have h : ((Primality.powMod (2 ^ 255 - 19) 255 curveD ((2 ^ 255 - 19) / 2) : ℤ) : Fp) =
        ((-1 : ℤ) : Fp) := fp_eq_iff.mpr constants.2.2.2.1
    rw [Int.cast_natCast] at h
    rw [h]
    exact Int.cast_neg_natCast 1
  have hne : (-1 : Fp) ≠ 1 := by
    intro h
    have hcast : ((-1 : ℤ) : Fp) = ((1 : ℤ) : Fp) := by
      push_cast
      exact h
    exact absurd (fp_eq_iff.mp hcast) (by decide)
  have hzero : gfd.toFp ≠ 0 := by
    intro h
    rw [h, zero_pow (by decide)] at hpow
    exact neg_ne_zero.mpr one_ne_zero hpow.symm
  rw [ZMod.euler_criterion _ hzero, hpow]
  exact hne

instance : Complete gfd.toFp where
  two_ne_zero := by
    intro h
    have hcast : ((2 : ℤ) : Fp) = ((0 : ℤ) : Fp) := by
      push_cast
      exact h
    exact absurd (fp_eq_iff.mp hcast) (by decide)
  isSquare_neg_one := ⟨gfi.toFp, gfi_square⟩
  not_isSquare := gfd_not_isSquare

/-- The points of the curve. -/
abbrev CurvePoint := Point gfd.toFp

/-! ## Extended coordinates -/

/-- The extended coordinates `v` stand for the point `P`. -/
structure Stands (P : CurvePoint) (v : Pt Fp) : Prop where
  z_ne_zero : v.z ≠ 0
  x : v.x = P.x * v.z
  y : v.y = P.y * v.z
  t : v.t = P.x * P.y * v.z

theorem Stands.zero : Stands 0 ⟨0, 1, 1, 0⟩ where
  z_ne_zero := one_ne_zero
  x := by simp
  y := by simp
  t := by simp

theorem Stands.add {P Q : CurvePoint} {v w : Pt Fp} (hv : Stands P v) (hw : Stands Q w) :
    Stands (P + Q) (Pt.add gfd2.toFp v w) := by
  have hplus := P.plus_ne_zero Q
  have hminus := P.minus_ne_zero Q
  have htwo : (2 : Fp) ≠ 0 := Complete.two_ne_zero gfd.toFp
  have hz : v.z * w.z ≠ 0 := mul_ne_zero hv.z_ne_zero hw.z_ne_zero
  -- the four intermediate products of the formula, each over the product of the denominators
  have hE : (v.x + v.y) * (w.x + w.y) - (v.y - v.x) * (w.y - w.x) =
      2 * (P.x * Q.y + P.y * Q.x) * (v.z * w.z) := by
    rw [hv.x, hv.y, hw.x, hw.y]
    ring
  have hH : (v.x + v.y) * (w.x + w.y) + (v.y - v.x) * (w.y - w.x) =
      2 * (P.y * Q.y + P.x * Q.x) * (v.z * w.z) := by
    rw [hv.x, hv.y, hw.x, hw.y]
    ring
  have hF : v.z * w.z + v.z * w.z - v.t * w.t * gfd2.toFp =
      2 * (1 - gfd.toFp * P.x * Q.x * P.y * Q.y) * (v.z * w.z) := by
    rw [hv.t, hw.t, gfd2_toFp]
    ring
  have hG : v.z * w.z + v.z * w.z + v.t * w.t * gfd2.toFp =
      2 * (1 + gfd.toFp * P.x * Q.x * P.y * Q.y) * (v.z * w.z) := by
    rw [hv.t, hw.t, gfd2_toFp]
    ring
  have hx := P.add_x Q
  have hy := P.add_y Q
  unfold Pt.add
  simp only [hE, hH, hF, hG]
  generalize 1 + gfd.toFp * P.x * Q.x * P.y * Q.y = G at *
  generalize 1 - gfd.toFp * P.x * Q.x * P.y * Q.y = F at *
  constructor
  · exact mul_ne_zero (mul_ne_zero (mul_ne_zero htwo hplus) hz) (mul_ne_zero (mul_ne_zero htwo hminus) hz)
  · rw [hx]
    field_simp
  · rw [hy]
    field_simp
  · rw [hx, hy]
    field_simp

/-! ## The ladder -/

/-- The number of a scalar. -/
def scalarNum (s : Fin 32 → UInt8) : ℕ := ∑ k, (s k).toNat * 256 ^ (k : ℕ)

theorem Stands.ladderPass {P : CurvePoint} {vw : Pt Fp × Pt Fp} {k : ℕ} (hv : Stands (k • P) vw.1)
    (hw : Stands ((k + 1) • P) vw.2) (s : Fin 32 → UInt8) (i : Fin 256) :
    Stands ((2 * k + scalarBit s i) • P) (Pt.ladderPass gfd2.toFp s vw i).1 ∧
      Stands ((2 * k + scalarBit s i + 1) • P) (Pt.ladderPass gfd2.toFp s vw i).2 := by
  have hbit := scalarBit_lt s i
  unfold Pt.ladderPass
  by_cases hone : scalarBit s i = 1
  · simp only [hone, if_true]
    have hsum := hv.add hw
    have hdouble := hw.add hw
    rw [← add_nsmul] at hsum hdouble
    rw [show 2 * k + 1 = k + (k + 1) by omega, show k + (k + 1) + 1 = k + 1 + (k + 1) by omega]
    exact ⟨hsum, hdouble⟩
  · simp only [hone, if_false]
    have hsum := hw.add hv
    have hdouble := hv.add hv
    rw [← add_nsmul] at hsum hdouble
    rw [show 2 * k + scalarBit s i = k + k by omega, show k + k + 1 = k + 1 + k by omega]
    exact ⟨hdouble, hsum⟩

/-- By induction on the bits, from the high one: the two points stand for neighbouring multiples. -/
theorem Stands.passes {P : CurvePoint} (s : Fin 32 → UInt8) (l : List (Fin 256)) {vw : Pt Fp × Pt Fp}
    {k : ℕ} (hv : Stands (k • P) vw.1) (hw : Stands ((k + 1) • P) vw.2) :
    Stands ((l.foldl (fun k i => 2 * k + scalarBit s i) k) • P)
      (l.foldl (Pt.ladderPass gfd2.toFp s) vw).1 := by
  induction l generalizing vw k with
  | nil => exact hv
  | cons i l ih =>
    obtain ⟨hv', hw'⟩ := hv.ladderPass hw s i
    exact ih hv' hw'


/-- The number of a list of bits, high bit first, of a number. -/
theorem foldl_bits (N n : ℕ) :
    (List.range n).reverse.foldl (fun k i => 2 * k + N / 2 ^ i % 2) (N / 2 ^ n) = N := by
  induction n with
  | zero => simp
  | succ n ih =>
    rw [List.range_succ, List.reverse_append, List.reverse_singleton, List.singleton_append,
      List.foldl_cons]
    have hstep : 2 * (N / 2 ^ (n + 1)) + N / 2 ^ n % 2 = N / 2 ^ n := by
      rw [pow_succ, ← Nat.div_div_eq_div_mul]
      omega
    rw [hstep, ih]

/-- A digit of a number that is given by its digits. -/
theorem digit_of_sum {B n : ℕ} (f : Fin n → ℕ) (hf : ∀ k, f k < B) (j : Fin n) :
    (∑ k, f k * B ^ (k : ℕ)) / B ^ (j : ℕ) % B = f j := by
  induction n with
  | zero => exact j.elim0
  | succ n ih =>
    have hB : 0 < B := Nat.zero_lt_of_lt (hf 0)
    have hsplit : (∑ k, f k * B ^ (k : ℕ)) = f 0 + B * ∑ k : Fin n, f k.succ * B ^ (k : ℕ) := by
      rw [Fin.sum_univ_succ, Finset.mul_sum]
      simp only [Fin.val_zero, pow_zero, mul_one, Fin.val_succ, pow_succ]
      congr 1
      exact Finset.sum_congr rfl fun k _ => by ring
    rw [hsplit]
    refine Fin.cases ?_ (fun j => ?_) j
    · rw [Fin.val_zero, pow_zero, Nat.div_one, Nat.add_mul_mod_self_left, Nat.mod_eq_of_lt (hf 0)]
    · rw [Fin.val_succ, pow_succ', ← Nat.div_div_eq_div_mul, Nat.add_mul_div_left _ _ hB,
        Nat.div_eq_of_lt (hf 0), Nat.zero_add]
      exact ih (fun k => f k.succ) (fun k => hf k.succ) j

theorem sum_lt {B n : ℕ} (f : Fin n → ℕ) (hf : ∀ k, f k < B) : ∑ k, f k * B ^ (k : ℕ) < B ^ n := by
  induction n with
  | zero => simp
  | succ n ih =>
    rw [Fin.sum_univ_castSucc]
    simp only [Fin.val_castSucc, Fin.val_last]
    have hlow := ih (fun k => f k.castSucc) fun k => hf _
    have hhigh : (f (Fin.last n) + 1) * B ^ n ≤ B * B ^ n := Nat.mul_le_mul_right _ (hf _)
    rw [Nat.add_mul, Nat.one_mul, ← pow_succ'] at hhigh
    omega

theorem bit_of_byte (N : ℕ) {r : ℕ} (hr : r < 8) : N % 256 / 2 ^ r % 2 = N / 2 ^ r % 2 := by
  interval_cases r <;> omega

theorem scalarBit_eq (s : Fin 32 → UInt8) (i : Fin 256) :
    scalarBit s i = scalarNum s / 2 ^ (i : ℕ) % 2 := by
  have hdigit := digit_of_sum (B := 256) (fun k => (s k).toNat) (fun k => (s k).toNat_lt)
    ⟨i / 8, by omega⟩
  have hbyte : (256 : ℕ) ^ (i / 8 : ℕ) = 2 ^ (8 * (i / 8 : ℕ)) := (pow_mul 2 8 _).symm
  have hpow : 2 ^ (i : ℕ) = 256 ^ (i / 8 : ℕ) * 2 ^ (i % 8 : ℕ) := by
    rw [hbyte, ← pow_add, Nat.div_add_mod]
  have hbit := bit_of_byte (scalarNum s / 256 ^ (i / 8 : ℕ)) (Nat.mod_lt (i : ℕ) (show 0 < 8 by decide))
  rw [scalarBit, hpow, ← Nat.div_div_eq_div_mul, ← hbit, scalarNum]
  exact congrArg (fun b => b / 2 ^ (i % 8 : ℕ) % 2) hdigit.symm

theorem scalarNum_lt (s : Fin 32 → UInt8) : scalarNum s < 2 ^ 256 := by
  have hlt := sum_lt (B := 256) (fun k => (s k).toNat) fun k => (s k).toNat_lt
  have hpow : (256 : ℕ) ^ 32 = 2 ^ 256 := by norm_num
  rw [hpow] at hlt
  exact hlt

theorem foldl_scalarBit (s : Fin 32 → UInt8) :
    (List.finRange 256).reverse.foldl (fun k i => 2 * k + scalarBit s i) 0 = scalarNum s := by
  have hbits := foldl_bits (scalarNum s) 256
  rw [Nat.div_eq_of_lt (scalarNum_lt s), ← List.map_coe_finRange_eq_range, ← List.map_reverse,
    List.foldl_map] at hbits
  simp only [scalarBit_eq]
  exact hbits

/-! ## The code's points -/

/-- The code's point `p` is the point `P` of the curve. -/
def IsPoint (P : CurvePoint) (p : Pt Gf) : Prop := ∃ v, RepPt v p ∧ Stands P v

theorem add_pt_isPoint {P Q : CurvePoint} {p q : Pt Gf} (hp : IsPoint P p) (hq : IsPoint Q q) :
    ∃ r, add_pt p q = some r ∧ IsPoint (P + Q) r := by
  obtain ⟨v, rv, hv⟩ := hp
  obtain ⟨w, rw', hw⟩ := hq
  obtain ⟨r, hr, rr⟩ := rep_add_pt rv rw'
  exact ⟨r, hr, _, rr, hv.add hw⟩

theorem scalarmult_isPoint {P : CurvePoint} {q : Pt Gf} (hq : IsPoint P q) (s : Fin 32 → UInt8) :
    ∃ r, scalarmult q s = some r ∧ IsPoint (scalarNum s • P) r.1 := by
  obtain ⟨v, rv, hv⟩ := hq
  obtain ⟨r, hr, rr, -⟩ := rep_scalarmult rv s
  refine ⟨r, hr, _, rr, ?_⟩
  have hzero : Stands ((0 : ℕ) • P) ⟨0, 1, 1, 0⟩ := by
    rw [zero_nsmul]
    exact Stands.zero
  have hone : Stands ((0 + 1) • P) v := by
    rw [zero_add, one_nsmul]
    exact hv
  have h := @Stands.passes P s (List.finRange 256).reverse (⟨0, 1, 1, 0⟩, v) 0 hzero hone
  rw [foldl_scalarBit] at h
  exact h

/-- The base point. -/
def basePoint : CurvePoint where
  x := gfx.toFp
  y := gfy.toFp
  on := by
    have h : ((gfy.num * gfy.num - gfx.num * gfx.num : ℤ) : Fp) =
        ((1 + gfd.num * (gfx.num * gfx.num) * (gfy.num * gfy.num) : ℤ) : Fp) :=
      fp_eq_iff.mpr constants.2.2.2.2
    unfold OnCurve
    simpa [Gf.toFp] using h

theorem scalarbase_isPoint (s : Fin 32 → UInt8) :
    ∃ r, scalarbase s = some r ∧ IsPoint (scalarNum s • basePoint) r := by
  obtain ⟨t, ht, rt⟩ := rep_m_gf (rep_reduced reduced_gfx) (rep_reduced reduced_gfy) (by decide)
    (by decide)
  have hq : IsPoint basePoint ⟨gfx, gfy, gf1, t⟩ :=
    ⟨⟨gfx.toFp, gfy.toFp, 1, gfx.toFp * gfy.toFp⟩,
      ⟨rep_reduced reduced_gfx, rep_reduced reduced_gfy, rep_gf1, rt⟩,
      ⟨one_ne_zero, (mul_one _).symm, (mul_one _).symm, (mul_one _).symm⟩⟩
  obtain ⟨r, hr, hp⟩ := scalarmult_isPoint hq s
  exact ⟨r.1, by simp [scalarbase, ht, hr], hp⟩

/-! ## Decoding -/

theorem onCurve_iff {x y : Fp} :
    OnCurve gfd.toFp x y ↔ x * x * (1 + y * y * gfd.toFp) = y * y - 1 := by
  unfold OnCurve
  constructor
  · intro h
    linear_combination -h
  · intro h
    linear_combination -h

theorem den_ne_zero (y : Fp) : 1 + y * y * gfd.toFp ≠ 0 := by
  intro h
  have hy : y ≠ 0 := by
    rintro rfl
    simp at h
  refine gfd_not_isSquare ⟨gfi.toFp / y, ?_⟩
  rw [div_mul_div_comm, ← gfi_square, eq_div_iff (mul_ne_zero hy hy)]
  linear_combination h

/-- Where a root exists, the candidate is one up to the sign of its square. -/
theorem rootOf_square {u w x : Fp} (hu : u = x * x * w) :
    rootOf u w * rootOf u w * w = u ∨ rootOf u w * rootOf u w * w = -u := by
  by_cases hx : x = 0
  · left
    rw [hu, hx]
    simp [rootOf]
  by_cases hw : w = 0
  · left
    rw [hu, hw]
    simp
  have hne : x * (w * w * (w * w)) ≠ 0 := mul_ne_zero hx (by simp [hw])
  have hpow : rootOf u w * rootOf u w * w =
      (x * (w * w * (w * w))) ^ ((2 ^ 255 - 19 - 1) / 2) * u := by
    have hW : w * w * (w * w) * (w * w) * u * w = (x * (w * w * (w * w))) ^ 2 := by
      rw [hu]
      ring
    rw [rootOf, hW, ← pow_mul]
    generalize hc : x * (w * w * (w * w)) = c at *
    have hexp : c ^ ((2 ^ 255 - 19 - 1) / 2) =
        c ^ (2 * (2 ^ 252 - 3)) * c ^ (2 * (2 ^ 252 - 3)) * c ^ 2 := by
      rw [← pow_add, ← pow_add]
      congr 1
    rw [hexp]
    generalize c ^ (2 * (2 ^ 252 - 3)) = e at *
    have hc2 : c ^ 2 = w * w * (w * w) * (w * w) * u * w := hW.symm
    rw [hc2]
    ring
  have hhalf : (x * (w * w * (w * w))) ^ ((2 ^ 255 - 19 - 1) / 2) *
      (x * (w * w * (w * w))) ^ ((2 ^ 255 - 19 - 1) / 2) = 1 := by
    rw [← pow_add]
    exact ZMod.pow_card_sub_one_eq_one hne
  rw [hpow]
  rcases mul_self_eq_one_iff.mp hhalf with h | h
  · left
    rw [h, one_mul]
  · right
    rw [h, neg_one_mul]

/-- The root that is tried is one just if there is one. -/
theorem triedRoot_iff (y : Fp) :
    triedRoot y * triedRoot y * (1 + y * y * gfd.toFp) = y * y - 1 ↔ ∃ x, OnCurve gfd.toFp x y := by
  constructor
  · exact fun h => ⟨_, onCurve_iff.mpr h⟩
  · rintro ⟨x, hx⟩
    rw [onCurve_iff] at hx
    unfold triedRoot
    simp only
    split
    case isTrue h => exact h
    case isFalse h =>
      rcases rootOf_square hx.symm with hroot | hroot
      · exact absurd hroot h
      · have hi := gfi_square
        linear_combination (-1) * hroot + (-(rootOf (y * y - 1) (1 + y * y * gfd.toFp) *
          rootOf (y * y - 1) (1 + y * y * gfd.toFp) * (1 + y * y * gfd.toFp))) * hi

/-- The key decodes to the point `A`: it gives the ordinate, and the parity of the abscissa. -/
structure Decodes (pk : Fin 32 → UInt8) (A : CurvePoint) : Prop where
  y : A.y = yOf pk
  sign : A.x = 0 ∨ A.x.val % 2 = (pk 31).toNat / 128

theorem val_neg {x : Fp} (hx : x ≠ 0) : (-x).val % 2 = 1 - x.val % 2 := by
  have hlt := ZMod.val_lt x
  have hval := ZMod.neg_val x
  rw [if_neg hx] at hval
  omega

theorem signByte (b : UInt8) : (b >>> 7).toNat = b.toNat / 128 := by
  rw [UInt8.toNat_shiftRight]
  simp [Nat.shiftRight_eq_div_pow]

/-- Decoding finds the point of a key, negated, where there is one. -/
theorem unpackneg_decodes (pk : Fin 32 → UInt8) :
    (unpackneg pk = some none ∧ ∀ A, ¬Decodes pk A) ∨
      ∃ q A, unpackneg pk = some (some q) ∧ IsPoint (-A) q ∧ Decodes pk A := by
  obtain ⟨r, hr, hnone, hrep⟩ := unpackneg_spec pk
  cases r with
  | none =>
    left
    refine ⟨hr, fun A hA => ?_⟩
    refine hnone.mp rfl ((triedRoot_iff _).mpr ⟨A.x, ?_⟩)
    rw [← hA.y]
    exact A.on
  | some q =>
    right
    have hroot : triedRoot (yOf pk) * triedRoot (yOf pk) * (1 + yOf pk * yOf pk * gfd.toFp) =
        yOf pk * yOf pk - 1 := by
      by_contra h
      exact absurd (hnone.mpr h) (by simp)
    have hq := hrep q rfl
    rw [signedRoot, signByte] at hq
    generalize triedRoot (yOf pk) = x at hroot hq
    have hbit : (pk 31).toNat / 128 < 2 := by
      have := (pk 31).toNat_lt
      omega
    have hneg : -x * -x * (1 + yOf pk * yOf pk * gfd.toFp) = yOf pk * yOf pk - 1 := by
      linear_combination hroot
    by_cases hsign : x.val % 2 = (pk 31).toNat / 128
    · rw [if_pos hsign, zero_sub] at hq
      refine ⟨q, ⟨x, yOf pk, onCurve_iff.mpr hroot⟩, hr, ⟨_, hq, ?_⟩, rfl, .inr hsign⟩
      exact ⟨one_ne_zero, (mul_one _).symm, (mul_one _).symm, (mul_one _).symm⟩
    · rw [if_neg hsign] at hq
      refine ⟨q, ⟨-x, yOf pk, onCurve_iff.mpr hneg⟩, hr, ⟨_, hq, ?_⟩, rfl, ?_⟩
      · refine ⟨one_ne_zero, ?_, (mul_one _).symm, ?_⟩
        · simp
        · simp
      · by_cases hx : x = 0
        · left
          simp [hx]
        · right
          simp only
          rw [val_neg hx]
          omega

/-- A key decodes to one point at most. -/
theorem Decodes.unique {pk : Fin 32 → UInt8} {A A' : CurvePoint} (h : Decodes pk A)
    (h' : Decodes pk A') : A = A' := by
  have hy : A.y = A'.y := h.y.trans h'.y.symm
  have hon := onCurve_iff.mp A.on
  have hon' := onCurve_iff.mp A'.on
  rw [← hy] at hon'
  have hsquare : A.x * A.x = A'.x * A'.x :=
    mul_right_cancel₀ (den_ne_zero A.y) (hon.trans hon'.symm)
  refine Point.ext ?_ hy
  rcases mul_self_eq_mul_self_iff.mp hsquare with hx | hx
  · exact hx
  · by_cases hzero : A'.x = 0
    · rw [hx, hzero, neg_zero]
    · have hne : A.x ≠ 0 := by
        rw [hx]
        exact neg_ne_zero.mpr hzero
      have hpar := h.sign.resolve_left hne
      have hpar' := h'.sign.resolve_left hzero
      rw [hx, val_neg hzero] at hpar
      omega

/-! ## Encoding -/

/-- The bytes encode the point: its ordinate, and the parity of its abscissa in the top bit. -/
def Encodes (P : CurvePoint) (r : Fin 32 → UInt8) : Prop :=
  encoded r = P.y.val + 2 ^ 255 * (P.x.val % 2)

theorem pack_point_encodes {P : CurvePoint} {p : Pt Gf} (hp : IsPoint P p) :
    ∃ r, pack_point p = some r ∧ Encodes P r := by
  obtain ⟨v, rv, hv⟩ := hp
  obtain ⟨r, hr, henc⟩ := pack_point_spec rv
  refine ⟨r, hr, ?_⟩
  have hinv : v.z * v.z ^ (2 ^ 255 - 21) = 1 := by
    rw [← pow_succ']
    exact ZMod.pow_card_sub_one_eq_one hv.z_ne_zero
  rw [hv.x, hv.y, mul_assoc, mul_assoc, hinv, mul_one, mul_one] at henc
  exact henc

end BloblyEmb.Bcrypto
