import Mathlib.GroupTheory.OrderOfElement
import BloblyEmb.Bcrypto.Curve
import BloblyEmb.Bcrypto.Scalar

/-!
# The order of the base point

The order of the scalars is a prime, and that multiple of the base point is zero. So two multiples of
the base point are one point just if their scalars agree modulo the order.
-/
namespace BloblyEmb.Bcrypto

open Edwards

/-- The order of the scalars, as a natural number. -/
def orderNat : ℕ := order.toNat

theorem orderNat_eq : orderNat =
    7237005577332262213973186563042994240857116359379907606001950938285454250989 := by
  decide +kernel

theorem orderNat_cast : (orderNat : ℤ) = order := by decide

section Primes

open Primality

theorem orderNat_prime : Nat.Prime orderNat := by
  have h₁ : Nat.Prime 292386187 := by
    refine prime_of_factors 29 2 [2, 3, 3, 3, 3, 307, 5879]
      (by decide) (by decide) ?_ (by decide) (by decide +kernel) (by decide +kernel)
    simp only [List.forall_mem_cons, List.not_mem_nil, false_imp_iff, implies_true, and_true]
    norm_num
  have h₂ : Nat.Prime 14741173 := by
    refine prime_of_factors 24 2 [2, 2, 3, 3, 409477]
      (by decide) (by decide) ?_ (by decide) (by decide +kernel) (by decide +kernel)
    simp only [List.forall_mem_cons, List.not_mem_nil, false_imp_iff, implies_true, and_true]
    norm_num
  have h₃ : Nat.Prime 58964693 := by
    refine prime_of_factors 26 2 [2, 2, 14741173]
      (by decide) (by decide) ?_ (by decide) (by decide +kernel) (by decide +kernel)
    simp only [List.forall_mem_cons, List.not_mem_nil, false_imp_iff, implies_true, and_true, h₂]
    norm_num
  have h₄ : Nat.Prime 213441916511 := by
    refine prime_of_factors 38 13 [2, 5, 73, 292386187]
      (by decide) (by decide) ?_ (by decide) (by decide +kernel) (by decide +kernel)
    simp only [List.forall_mem_cons, List.not_mem_nil, false_imp_iff, implies_true, and_true, h₁]
    norm_num
  have h₅ : Nat.Prime 1257559732178653 := by
    refine prime_of_factors 51 2 [2, 2, 3, 7, 23, 531581, 1224481]
      (by decide) (by decide) ?_ (by decide) (by decide +kernel) (by decide +kernel)
    simp only [List.forall_mem_cons, List.not_mem_nil, false_imp_iff, implies_true, and_true]
    norm_num
  have h₆ : Nat.Prime 4434155615661930479 := by
    refine prime_of_factors 62 17 [2, 41, 43, 1257559732178653]
      (by decide) (by decide) ?_ (by decide) (by decide +kernel) (by decide +kernel)
    simp only [List.forall_mem_cons, List.not_mem_nil, false_imp_iff, implies_true, and_true, h₅]
    norm_num
  have h₇ : Nat.Prime 172054593956031949258510691 := by
    refine prime_of_factors 88 2 [2, 5, 1361, 2851, 4434155615661930479]
      (by decide) (by decide) ?_ (by decide) (by decide +kernel) (by decide +kernel)
    simp only [List.forall_mem_cons, List.not_mem_nil, false_imp_iff, implies_true, and_true, h₆]
    norm_num
  have h₈ : Nat.Prime 19757330305831588566944191468367130476339 := by
    refine prime_of_factors 134 2 [2, 269, 213441916511, 172054593956031949258510691]
      (by decide) (by decide) ?_ (by decide) (by decide +kernel) (by decide +kernel)
    simp only [List.forall_mem_cons, List.not_mem_nil, false_imp_iff, implies_true, and_true,
      h₄, h₇]
    norm_num
  have h₉ : Nat.Prime 276602624281642239937218680557139826668747 := by
    refine prime_of_factors 138 2 [2, 7, 19757330305831588566944191468367130476339]
      (by decide) (by decide) ?_ (by decide) (by decide +kernel) (by decide +kernel)
    simp only [List.forall_mem_cons, List.not_mem_nil, false_imp_iff, implies_true, and_true, h₈]
    norm_num
  have h₁₀ : Nat.Prime 3044861653679985063343 := by
    refine prime_of_factors 72 5 [2, 3, 11, 30703, 82163, 132667, 137849]
      (by decide) (by decide) ?_ (by decide) (by decide +kernel) (by decide +kernel)
    simp only [List.forall_mem_cons, List.not_mem_nil, false_imp_iff, implies_true, and_true]
    norm_num
  have h₁₁ : Nat.Prime 198211423230930754013084525763697 := by
    refine prime_of_factors 108 5 [2, 2, 2, 2, 3, 23, 58964693, 3044861653679985063343]
      (by decide) (by decide) ?_ (by decide) (by decide +kernel) (by decide +kernel)
    simp only [List.forall_mem_cons, List.not_mem_nil, false_imp_iff, implies_true, and_true, h₁₀,
      h₃]
    norm_num
  rw [orderNat_eq]
  refine prime_of_factors 253 2 [2, 2, 3, 11, 198211423230930754013084525763697,
    276602624281642239937218680557139826668747] (by decide) (by decide) ?_
    (by decide) (by decide +kernel) (by decide +kernel)
  simp only [List.forall_mem_cons, List.not_mem_nil, false_imp_iff, implies_true, and_true, h₉, h₁₁]
  norm_num

end Primes

/-! ## The multiple -/

/-- The sum of two points, by representatives below the prime. -/
def Pt.addMod (p q : Pt ℕ) : Pt ℕ :=
  let m := 2 ^ 255 - 19
  let a := (p.y + (m - p.x)) * (q.y + (m - q.x)) % m
  let b := (p.x + p.y) * (q.x + q.y) % m
  let c := p.t * q.t * gfd2.num.toNat % m
  let d := (p.z * q.z + p.z * q.z) % m
  let e := (b + (m - a)) % m
  let f := (d + (m - c)) % m
  ⟨e * f % m, (b + a) * (d + c) % m, (d + c) * f % m, e * (b + a) % m⟩

/-- A multiple by at most `n` doublings. -/
def Pt.multiple (p : Pt ℕ) : ℕ → ℕ → Pt ℕ
  | 0, _ => ⟨0, 1, 1, 0⟩
  | n + 1, e =>
    let q := Pt.multiple p n (e / 2)
    let q := Pt.addMod q q
    if e % 2 = 1 then Pt.addMod q p else q

/-- The coordinates are representatives of those of the point `P`. -/
structure Represents (P : CurvePoint) (p : Pt ℕ) : Prop where
  x_le : p.x ≤ 2 ^ 255 - 19
  stands : Stands P ⟨p.x, p.y, p.z, p.t⟩

theorem cast_sub_mod {a : ℕ} (ha : a ≤ 2 ^ 255 - 19) : ((2 ^ 255 - 19 - a : ℕ) : Fp) = -(a : Fp) := by
  rw [Nat.cast_sub ha, ZMod.natCast_self, zero_sub]

theorem cast_mod (a : ℕ) : ((a % (2 ^ 255 - 19) : ℕ) : Fp) = a := ZMod.natCast_mod a _

theorem Represents.add {P Q : CurvePoint} {p q : Pt ℕ} (hp : Represents P p) (hq : Represents Q q) :
    Represents (P + Q) (Pt.addMod p q) := by
  have hpos : 0 < 2 ^ 255 - 19 := by decide
  have hle : ∀ a, a % (2 ^ 255 - 19) ≤ 2 ^ 255 - 19 := fun a => (Nat.mod_lt a hpos).le
  have hd2 : (gfd2.num.toNat : Fp) = gfd2.toFp := by
    rw [Gf.toFp, ← Int.cast_natCast, show ((gfd2.num.toNat : ℕ) : ℤ) = gfd2.num by decide +kernel]
  refine ⟨hle _, ?_⟩
  have hsum := hp.stands.add hq.stands
  unfold Pt.add at hsum
  unfold Pt.addMod
  convert hsum using 2 <;>
  · simp only [cast_mod, Nat.cast_mul, Nat.cast_add, cast_sub_mod hp.x_le, cast_sub_mod hq.x_le,
      cast_sub_mod (hle _), hd2]
    ring

theorem Represents.zero : Represents 0 ⟨0, 1, 1, 0⟩ where
  x_le := Nat.zero_le _
  stands := by
    simpa using Stands.zero

/-- By induction on the bits, from the low one. -/
theorem Represents.multiple {P : CurvePoint} {p : Pt ℕ} (hp : Represents P p) (n e : ℕ) (he : e < 2 ^ n) :
    Represents (e • P) (Pt.multiple p n e) := by
  induction n generalizing e with
  | zero =>
    obtain rfl : e = 0 := by simpa using he
    rw [zero_nsmul]
    exact Represents.zero
  | succ n ih =>
    have hhalf := ih (e / 2) (by omega)
    have hdouble := hhalf.add hhalf
    rw [← add_nsmul] at hdouble
    rw [Pt.multiple]
    split
    case isTrue hodd =>
      have hlast := hdouble.add hp
      rw [← succ_nsmul, show e / 2 + e / 2 + 1 = e by omega] at hlast
      exact hlast
    case isFalse heven =>
      rw [show e / 2 + e / 2 = e by omega] at hdouble
      exact hdouble

/-- The base point, by representatives. -/
def basePt : Pt ℕ :=
  ⟨gfx.num.toNat, gfy.num.toNat, 1, gfx.num.toNat * gfy.num.toNat⟩

theorem basePt_nums : (gfx.num.toNat : ℤ) = gfx.num ∧ (gfy.num.toNat : ℤ) = gfy.num ∧
    gfx.num.toNat ≤ 2 ^ 255 - 19 ∧ gfy.num % prime ≠ 1 % prime ∧ orderNat < 2 ^ 253 ∧
    (Pt.multiple basePt 253 orderNat).x = 0 ∧
    (Pt.multiple basePt 253 orderNat).y = (Pt.multiple basePt 253 orderNat).z := by
  decide +kernel

theorem represents_basePt : Represents basePoint basePt := by
  obtain ⟨hx, hy, hle, -⟩ := basePt_nums
  have hxf : (gfx.num.toNat : Fp) = gfx.toFp := by
    rw [Gf.toFp, ← Int.cast_natCast, hx]
  have hyf : (gfy.num.toNat : Fp) = gfy.toFp := by
    rw [Gf.toFp, ← Int.cast_natCast, hy]
  refine ⟨hle, ?_, ?_, ?_, ?_⟩ <;> simp [basePt, basePoint, hxf, hyf]

theorem order_nsmul : orderNat • basePoint = 0 := by
  obtain ⟨-, -, -, -, hlt, hx, hyz⟩ := basePt_nums
  obtain ⟨-, hstands⟩ := represents_basePt.multiple 253 orderNat hlt
  have hxz := hstands.x
  have hyz' := hstands.y
  rw [hx, Nat.cast_zero] at hxz
  rw [hyz] at hyz'
  refine Point.ext ?_ ?_
  · exact (mul_eq_zero.mp hxz.symm).resolve_right hstands.z_ne_zero
  · exact mul_right_cancel₀ hstands.z_ne_zero (hyz'.symm.trans (one_mul _).symm)

theorem basePoint_ne_zero : basePoint ≠ 0 := by
  intro h
  have hy : gfy.toFp = 1 := congrArg Point.y h
  have hcast : ((gfy.num : ℤ) : Fp) = ((1 : ℤ) : Fp) := by
    rw [Int.cast_one]
    exact hy
  exact basePt_nums.2.2.2.1 (fp_eq_iff.mp hcast)

theorem addOrderOf_basePoint : addOrderOf basePoint = orderNat :=
  haveI : Fact orderNat.Prime := ⟨orderNat_prime⟩
  addOrderOf_eq_prime order_nsmul basePoint_ne_zero

/-- Multiples of the base point by scalars below the order are different. -/
theorem nsmul_basePoint_inj {s s' : ℕ} (hs : s < orderNat) (hs' : s' < orderNat)
    (h : s • basePoint = s' • basePoint) : s = s' := by
  rw [nsmul_eq_nsmul_iff_modEq, addOrderOf_basePoint] at h
  exact Nat.ModEq.eq_of_lt_of_lt h hs hs'

theorem nsmul_basePoint_mod (s : ℕ) : (s % orderNat) • basePoint = s • basePoint := by
  rw [nsmul_eq_nsmul_iff_modEq, addOrderOf_basePoint]
  exact Nat.mod_modEq s orderNat

end BloblyEmb.Bcrypto
