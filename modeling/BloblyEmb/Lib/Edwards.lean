import Mathlib.Algebra.Field.Basic
import Mathlib.Algebra.Group.Even
import Mathlib.Tactic.FieldSimp
import Mathlib.Tactic.LinearCombination
import Mathlib.Tactic.Ring

/-!
# A twisted Edwards curve

The points of `y² - x² = 1 + d x² y²` over a field in which `-1` is a square and `d` is none. There the
sum of two points has no exceptions, and the points are a group.
-/
namespace BloblyEmb.Edwards

variable {K : Type} [Field K]

/-- The sum has no exceptions on the curve of `d`. -/
class Complete (d : K) : Prop where
  two_ne_zero : (2 : K) ≠ 0
  isSquare_neg_one : IsSquare (-1 : K)
  not_isSquare : ¬IsSquare d

def OnCurve (d x y : K) : Prop := y * y - x * x = 1 + d * (x * x) * (y * y)

/-! ## Denominators -/

section Denominators

variable {d x₁ y₁ x₂ y₂ : K}

/-- Where a denominator vanished, `d` would be a square, or a sum of coordinates zero. -/
theorem isSquare_or_eq_zero {i ε : K} (hi : -1 = i * i) (hε : ε * ε = 1) (h₁ : OnCurve d x₁ y₁)
    (h₂ : OnCurve d x₂ y₂) (h : d * x₁ * x₂ * y₁ * y₂ = ε) : IsSquare d ∨ i * x₂ + y₂ = 0 := by
  unfold OnCurve at h₁ h₂
  have hne : ε ≠ 0 := by
    rintro rfl
    simp at hε
  have hx : x₁ ≠ 0 := by
    rintro rfl
    exact hne (by rw [← h]; ring)
  have hy : y₁ ≠ 0 := by
    rintro rfl
    exact hne (by rw [← h]; ring)
  have hsquare : (i * x₁ + ε * y₁) * (i * x₁ + ε * y₁) =
      d * ((x₁ * y₁) * (i * x₂ + y₂)) * ((x₁ * y₁) * (i * x₂ + y₂)) := by
    linear_combination (y₁ * y₁) * hε + h₁ - d * x₁ * x₁ * y₁ * y₁ * h₂ +
      (d * x₁ * x₁ * y₁ * y₁ * x₂ * x₂ - x₁ * x₁) * hi -
      (d * x₁ * x₂ * y₁ * y₂ + ε + 2 * i * x₁ * y₁) * h - hε
  by_cases hsum : i * x₂ + y₂ = 0
  · exact .inr hsum
  · left
    have hden : (x₁ * y₁) * (i * x₂ + y₂) ≠ 0 := mul_ne_zero (mul_ne_zero hx hy) hsum
    refine ⟨(i * x₁ + ε * y₁) / ((x₁ * y₁) * (i * x₂ + y₂)), ?_⟩
    rw [div_mul_div_comm, hsquare, mul_assoc, mul_div_cancel_right₀ d (mul_ne_zero hden hden)]

theorem product_ne [Complete d] {ε : K} (hε : ε * ε = 1) (h₁ : OnCurve d x₁ y₁)
    (h₂ : OnCurve d x₂ y₂) : d * x₁ * x₂ * y₁ * y₂ ≠ ε := by
  intro h
  obtain ⟨i, hi⟩ := Complete.isSquare_neg_one d
  have hneg : ∀ {x y : K}, OnCurve d x y → OnCurve d x (-y) := by
    intro x y hxy
    unfold OnCurve at hxy ⊢
    linear_combination hxy
  have hsum := (isSquare_or_eq_zero hi hε h₁ h₂ h).resolve_left (Complete.not_isSquare)
  have hdiff := (isSquare_or_eq_zero hi hε (hneg h₁) (hneg h₂)
    (by linear_combination h)).resolve_left (Complete.not_isSquare)
  have hzero : 2 * y₂ = 0 := by linear_combination hsum - hdiff
  have hy : y₂ = 0 := (mul_eq_zero.mp hzero).resolve_left (Complete.two_ne_zero d)
  rw [hy, mul_zero] at h
  rw [← h, mul_zero] at hε
  exact zero_ne_one hε

theorem one_add_ne_zero [Complete d] (h₁ : OnCurve d x₁ y₁) (h₂ : OnCurve d x₂ y₂) :
    1 + d * x₁ * x₂ * y₁ * y₂ ≠ 0 := by
  intro h
  exact product_ne (ε := -1) (by ring) h₁ h₂ (by linear_combination h)

theorem one_sub_ne_zero [Complete d] (h₁ : OnCurve d x₁ y₁) (h₂ : OnCurve d x₂ y₂) :
    1 - d * x₁ * x₂ * y₁ * y₂ ≠ 0 := by
  intro h
  exact product_ne (ε := 1) (by ring) h₁ h₂ (by linear_combination -h)

end Denominators

/-! ## Identities -/

section Identities

variable {d x₁ y₁ x₂ y₂ x₃ y₃ : K}

/-- The sum is on the curve, without its denominators. -/
theorem closed_num (h₁ : OnCurve d x₁ y₁) (h₂ : OnCurve d x₂ y₂) {E H F G : K}
    (hE : E = x₁ * y₂ + y₁ * x₂) (hH : H = y₁ * y₂ + x₁ * x₂)
    (hF : F = 1 - d * x₁ * x₂ * y₁ * y₂) (hG : G = 1 + d * x₁ * x₂ * y₁ * y₂) :
    H * H * G * G - E * E * F * F = F * F * G * G + d * E * E * H * H := by
  unfold OnCurve at h₁ h₂
  subst hE hH hF hG
  linear_combination
    (x₁ ^ 2 * y₁ ^ 2 * x₂ ^ 4 * y₂ ^ 4 * d ^ 3 - x₁ ^ 2 * x₂ ^ 4 * y₂ ^ 4 * d ^ 2 - x₁ ^ 2 * x₂
     ^ 4 * y₂ ^ 2 * d + x₁ ^ 2 * x₂ ^ 2 * y₂ ^ 4 * d + y₁ ^ 2 * x₂ ^ 4 * y₂ ^ 4 * d ^ 2 +
     y₁ ^ 2 * x₂ ^ 4 * y₂ ^ 2 * d - y₁ ^ 2 * x₂ ^ 2 * y₂ ^ 4 * d - x₂ ^ 4 * y₂ ^ 4 * d ^ 2
     - 2 * x₂ ^ 4 * y₂ ^ 4 * d - 2 * x₂ ^ 4 * y₂ ^ 2 + x₂ ^ 4 + 2 * x₂ ^ 2 * y₂ ^ 4 - 2 *
     x₂ ^ 2 * y₂ ^ 2 * d - 4 * x₂ ^ 2 * y₂ ^ 2 + y₂ ^ 4) * h₁ +
    (x₁ ^ 4 * x₂ ^ 2 * y₂ ^ 2 * d + 2 * x₁ ^ 2 * x₂ ^ 2 * y₂ ^ 2 * d + 2 * x₁ ^ 2 * x₂ ^ 2 * y₂
     ^ 2 - x₁ ^ 2 * x₂ ^ 2 + x₁ ^ 2 * y₂ ^ 2 + y₁ ^ 4 * x₂ ^ 2 * y₂ ^ 2 * d - 2 * y₁ ^ 2 *
     x₂ ^ 2 * y₂ ^ 2 * d - 2 * y₁ ^ 2 * x₂ ^ 2 * y₂ ^ 2 + y₁ ^ 2 * x₂ ^ 2 - y₁ ^ 2 * y₂ ^ 2
     + x₂ ^ 2 * y₂ ^ 2 * d + 2 * x₂ ^ 2 * y₂ ^ 2 - x₂ ^ 2 + y₂ ^ 2 + 1) * h₂

/-- The abscissae of both ways to add three points, without their denominators. -/
theorem assoc_x_num (h₁ : OnCurve d x₁ y₁) (h₂ : OnCurve d x₂ y₂) (h₃ : OnCurve d x₃ y₃)
    {E H F G E' H' F' G' : K} (hE : E = x₁ * y₂ + y₁ * x₂) (hH : H = y₁ * y₂ + x₁ * x₂)
    (hF : F = 1 - d * x₁ * x₂ * y₁ * y₂) (hG : G = 1 + d * x₁ * x₂ * y₁ * y₂)
    (hE' : E' = x₂ * y₃ + y₂ * x₃) (hH' : H' = y₂ * y₃ + x₂ * x₃)
    (hF' : F' = 1 - d * x₂ * x₃ * y₂ * y₃) (hG' : G' = 1 + d * x₂ * x₃ * y₂ * y₃) :
    (E * F * y₃ + H * G * x₃) * (F' * G' + d * E' * H' * x₁ * y₁) =
      (E' * F' * y₁ + H' * G' * x₁) * (F * G + d * E * H * x₃ * y₃) := by
  unfold OnCurve at h₁ h₂ h₃
  subst hE hH hF hG hE' hH' hF' hG'
  linear_combination
    (-x₁ * x₂ ^ 4 * y₂ ^ 3 * x₃ ^ 2 * y₃ * d ^ 2 - x₁ * x₂ ^ 4 * y₂ * x₃ ^ 2 * y₃ * d - x₁ * x₂
     ^ 3 * y₂ ^ 4 * x₃ * y₃ ^ 2 * d ^ 2 - x₁ * x₂ ^ 3 * y₂ ^ 2 * x₃ ^ 3 * d - x₁ * x₂ ^ 3 *
     y₂ ^ 2 * x₃ * d + x₁ * x₂ ^ 2 * y₂ ^ 3 * y₃ ^ 3 * d - x₁ * x₂ ^ 2 * y₂ ^ 3 * y₃ * d +
     x₁ * x₂ * y₂ ^ 4 * x₃ * y₃ ^ 2 * d + y₁ * x₂ ^ 4 * y₂ ^ 3 * x₃ * y₃ ^ 2 * d ^ 2 + y₁ *
     x₂ ^ 4 * y₂ * x₃ * y₃ ^ 2 * d + y₁ * x₂ ^ 3 * y₂ ^ 4 * x₃ ^ 2 * y₃ * d ^ 2 + y₁ * x₂ ^
     3 * y₂ ^ 2 * y₃ ^ 3 * d - y₁ * x₂ ^ 3 * y₂ ^ 2 * y₃ * d - y₁ * x₂ ^ 2 * y₂ ^ 3 * x₃ ^
     3 * d - y₁ * x₂ ^ 2 * y₂ ^ 3 * x₃ * d - y₁ * x₂ * y₂ ^ 4 * x₃ ^ 2 * y₃ * d) * h₁ +
    (x₁ ^ 3 * x₂ ^ 2 * y₂ * x₃ ^ 2 * y₃ * d + x₁ ^ 3 * x₂ * y₂ ^ 2 * x₃ * y₃ ^ 2 * d + x₁ ^ 3 *
     x₂ * x₃ ^ 3 * y₃ ^ 2 * d + x₁ ^ 3 * x₂ * x₃ ^ 3 - x₁ ^ 3 * x₂ * x₃ * y₃ ^ 2 + x₁ ^ 3 *
     x₂ * x₃ + x₁ ^ 3 * y₂ * x₃ ^ 2 * y₃ ^ 3 * d + x₁ ^ 3 * y₂ * x₃ ^ 2 * y₃ - x₁ ^ 3 * y₂
     * y₃ ^ 3 + x₁ ^ 3 * y₂ * y₃ + x₁ ^ 2 * y₁ * x₂ ^ 2 * y₂ * x₃ ^ 3 * y₃ ^ 2 * d ^ 2 - x₁
     ^ 2 * y₁ * x₂ ^ 2 * y₂ * x₃ * y₃ ^ 2 * d - x₁ ^ 2 * y₁ * x₂ * y₂ ^ 2 * x₃ ^ 2 * y₃ ^ 3
     * d ^ 2 - x₁ ^ 2 * y₁ * x₂ * y₂ ^ 2 * x₃ ^ 2 * y₃ * d + x₁ ^ 2 * y₁ * x₂ * x₃ ^ 2 * y₃
     ^ 3 * d + x₁ ^ 2 * y₁ * x₂ * x₃ ^ 2 * y₃ - x₁ ^ 2 * y₁ * x₂ * y₃ ^ 3 + x₁ ^ 2 * y₁ *
     x₂ * y₃ + x₁ ^ 2 * y₁ * y₂ * x₃ ^ 3 * y₃ ^ 2 * d + x₁ ^ 2 * y₁ * y₂ * x₃ ^ 3 - x₁ ^ 2
     * y₁ * y₂ * x₃ * y₃ ^ 2 + x₁ ^ 2 * y₁ * y₂ * x₃ - x₁ * y₁ ^ 2 * x₂ ^ 2 * y₂ * x₃ ^ 2 *
     y₃ ^ 3 * d ^ 2 - x₁ * y₁ ^ 2 * x₂ ^ 2 * y₂ * x₃ ^ 2 * y₃ * d + x₁ * y₁ ^ 2 * x₂ * y₂ ^
     2 * x₃ ^ 3 * y₃ ^ 2 * d ^ 2 - x₁ * y₁ ^ 2 * x₂ * y₂ ^ 2 * x₃ * y₃ ^ 2 * d - x₁ * y₁ ^
     2 * x₂ * x₃ ^ 3 * y₃ ^ 2 * d - x₁ * y₁ ^ 2 * x₂ * x₃ ^ 3 + x₁ * y₁ ^ 2 * x₂ * x₃ * y₃
     ^ 2 - x₁ * y₁ ^ 2 * x₂ * x₃ - x₁ * y₁ ^ 2 * y₂ * x₃ ^ 2 * y₃ ^ 3 * d - x₁ * y₁ ^ 2 *
     y₂ * x₃ ^ 2 * y₃ + x₁ * y₁ ^ 2 * y₂ * y₃ ^ 3 - x₁ * y₁ ^ 2 * y₂ * y₃ + x₁ * x₂ ^ 2 *
     y₂ * x₃ ^ 2 * y₃ * d + x₁ * x₂ * y₂ ^ 2 * x₃ * y₃ ^ 2 * d + x₁ * x₂ * x₃ ^ 3 * y₃ ^ 2
     * d + x₁ * x₂ * x₃ ^ 3 - x₁ * x₂ * x₃ * y₃ ^ 2 + x₁ * x₂ * x₃ + x₁ * y₂ * x₃ ^ 2 * y₃
     ^ 3 * d + x₁ * y₂ * x₃ ^ 2 * y₃ - x₁ * y₂ * y₃ ^ 3 + x₁ * y₂ * y₃ + y₁ ^ 3 * x₂ ^ 2 *
     y₂ * x₃ * y₃ ^ 2 * d + y₁ ^ 3 * x₂ * y₂ ^ 2 * x₃ ^ 2 * y₃ * d - y₁ ^ 3 * x₂ * x₃ ^ 2 *
     y₃ ^ 3 * d - y₁ ^ 3 * x₂ * x₃ ^ 2 * y₃ + y₁ ^ 3 * x₂ * y₃ ^ 3 - y₁ ^ 3 * x₂ * y₃ - y₁
     ^ 3 * y₂ * x₃ ^ 3 * y₃ ^ 2 * d - y₁ ^ 3 * y₂ * x₃ ^ 3 + y₁ ^ 3 * y₂ * x₃ * y₃ ^ 2 - y₁
     ^ 3 * y₂ * x₃ - y₁ * x₂ ^ 2 * y₂ * x₃ * y₃ ^ 2 * d - y₁ * x₂ * y₂ ^ 2 * x₃ ^ 2 * y₃ *
     d + y₁ * x₂ * x₃ ^ 2 * y₃ ^ 3 * d + y₁ * x₂ * x₃ ^ 2 * y₃ - y₁ * x₂ * y₃ ^ 3 + y₁ * x₂
     * y₃ + y₁ * y₂ * x₃ ^ 3 * y₃ ^ 2 * d + y₁ * y₂ * x₃ ^ 3 - y₁ * y₂ * x₃ * y₃ ^ 2 + y₁ *
     y₂ * x₃) * h₂ +
    (-x₁ ^ 3 * x₂ ^ 3 * x₃ - x₁ ^ 3 * x₂ ^ 2 * y₂ * y₃ + x₁ ^ 3 * x₂ * y₂ ^ 2 * x₃ - x₁ ^ 3 * x₂
     * x₃ + x₁ ^ 3 * y₂ ^ 3 * y₃ - x₁ ^ 3 * y₂ * y₃ - x₁ ^ 2 * y₁ * x₂ ^ 3 * y₃ - x₁ ^ 2 *
     y₁ * x₂ ^ 2 * y₂ * x₃ * d - x₁ ^ 2 * y₁ * x₂ ^ 2 * y₂ * x₃ + x₁ ^ 2 * y₁ * x₂ * y₂ ^ 2
     * y₃ * d + x₁ ^ 2 * y₁ * x₂ * y₂ ^ 2 * y₃ - x₁ ^ 2 * y₁ * x₂ * y₃ + x₁ ^ 2 * y₁ * y₂ ^
     3 * x₃ - x₁ ^ 2 * y₁ * y₂ * x₃ + x₁ * y₁ ^ 2 * x₂ ^ 3 * x₃ + x₁ * y₁ ^ 2 * x₂ ^ 2 * y₂
     * y₃ * d + x₁ * y₁ ^ 2 * x₂ ^ 2 * y₂ * y₃ - x₁ * y₁ ^ 2 * x₂ * y₂ ^ 2 * x₃ * d - x₁ *
     y₁ ^ 2 * x₂ * y₂ ^ 2 * x₃ + x₁ * y₁ ^ 2 * x₂ * x₃ - x₁ * y₁ ^ 2 * y₂ ^ 3 * y₃ + x₁ *
     y₁ ^ 2 * y₂ * y₃ - x₁ * x₂ ^ 3 * x₃ - x₁ * x₂ ^ 2 * y₂ * y₃ + x₁ * x₂ * y₂ ^ 2 * x₃ -
     x₁ * x₂ * x₃ + x₁ * y₂ ^ 3 * y₃ - x₁ * y₂ * y₃ + y₁ ^ 3 * x₂ ^ 3 * y₃ + y₁ ^ 3 * x₂ ^
     2 * y₂ * x₃ - y₁ ^ 3 * x₂ * y₂ ^ 2 * y₃ + y₁ ^ 3 * x₂ * y₃ - y₁ ^ 3 * y₂ ^ 3 * x₃ + y₁
     ^ 3 * y₂ * x₃ - y₁ * x₂ ^ 3 * y₃ - y₁ * x₂ ^ 2 * y₂ * x₃ + y₁ * x₂ * y₂ ^ 2 * y₃ - y₁
     * x₂ * y₃ + y₁ * y₂ ^ 3 * x₃ - y₁ * y₂ * x₃) * h₃

/-- And the ordinates. -/
theorem assoc_y_num (h₁ : OnCurve d x₁ y₁) (h₂ : OnCurve d x₂ y₂) (h₃ : OnCurve d x₃ y₃)
    {E H F G E' H' F' G' : K} (hE : E = x₁ * y₂ + y₁ * x₂) (hH : H = y₁ * y₂ + x₁ * x₂)
    (hF : F = 1 - d * x₁ * x₂ * y₁ * y₂) (hG : G = 1 + d * x₁ * x₂ * y₁ * y₂)
    (hE' : E' = x₂ * y₃ + y₂ * x₃) (hH' : H' = y₂ * y₃ + x₂ * x₃)
    (hF' : F' = 1 - d * x₂ * x₃ * y₂ * y₃) (hG' : G' = 1 + d * x₂ * x₃ * y₂ * y₃) :
    (H * G * y₃ + E * F * x₃) * (F' * G' - d * E' * H' * x₁ * y₁) =
      (H' * G' * y₁ + E' * F' * x₁) * (F * G - d * E * H * x₃ * y₃) := by
  unfold OnCurve at h₁ h₂ h₃
  subst hE hH hF hG hE' hH' hF' hG'
  linear_combination
    (x₁ * x₂ ^ 4 * y₂ ^ 3 * x₃ * y₃ ^ 2 * d ^ 2 + x₁ * x₂ ^ 4 * y₂ * x₃ * y₃ ^ 2 * d + x₁ * x₂ ^
     3 * y₂ ^ 4 * x₃ ^ 2 * y₃ * d ^ 2 + x₁ * x₂ ^ 3 * y₂ ^ 2 * y₃ ^ 3 * d - x₁ * x₂ ^ 3 *
     y₂ ^ 2 * y₃ * d - x₁ * x₂ ^ 2 * y₂ ^ 3 * x₃ ^ 3 * d - x₁ * x₂ ^ 2 * y₂ ^ 3 * x₃ * d -
     x₁ * x₂ * y₂ ^ 4 * x₃ ^ 2 * y₃ * d - y₁ * x₂ ^ 4 * y₂ ^ 3 * x₃ ^ 2 * y₃ * d ^ 2 - y₁ *
     x₂ ^ 4 * y₂ * x₃ ^ 2 * y₃ * d - y₁ * x₂ ^ 3 * y₂ ^ 4 * x₃ * y₃ ^ 2 * d ^ 2 - y₁ * x₂ ^
     3 * y₂ ^ 2 * x₃ ^ 3 * d - y₁ * x₂ ^ 3 * y₂ ^ 2 * x₃ * d + y₁ * x₂ ^ 2 * y₂ ^ 3 * y₃ ^
     3 * d - y₁ * x₂ ^ 2 * y₂ ^ 3 * y₃ * d + y₁ * x₂ * y₂ ^ 4 * x₃ * y₃ ^ 2 * d) * h₁ +
    (-x₁ ^ 3 * x₂ ^ 2 * y₂ * x₃ * y₃ ^ 2 * d - x₁ ^ 3 * x₂ * y₂ ^ 2 * x₃ ^ 2 * y₃ * d + x₁ ^ 3 *
     x₂ * x₃ ^ 2 * y₃ ^ 3 * d + x₁ ^ 3 * x₂ * x₃ ^ 2 * y₃ - x₁ ^ 3 * x₂ * y₃ ^ 3 + x₁ ^ 3 *
     x₂ * y₃ + x₁ ^ 3 * y₂ * x₃ ^ 3 * y₃ ^ 2 * d + x₁ ^ 3 * y₂ * x₃ ^ 3 - x₁ ^ 3 * y₂ * x₃
     * y₃ ^ 2 + x₁ ^ 3 * y₂ * x₃ + x₁ ^ 2 * y₁ * x₂ ^ 2 * y₂ * x₃ ^ 2 * y₃ ^ 3 * d ^ 2 + x₁
     ^ 2 * y₁ * x₂ ^ 2 * y₂ * x₃ ^ 2 * y₃ * d - x₁ ^ 2 * y₁ * x₂ * y₂ ^ 2 * x₃ ^ 3 * y₃ ^ 2
     * d ^ 2 + x₁ ^ 2 * y₁ * x₂ * y₂ ^ 2 * x₃ * y₃ ^ 2 * d + x₁ ^ 2 * y₁ * x₂ * x₃ ^ 3 * y₃
     ^ 2 * d + x₁ ^ 2 * y₁ * x₂ * x₃ ^ 3 - x₁ ^ 2 * y₁ * x₂ * x₃ * y₃ ^ 2 + x₁ ^ 2 * y₁ *
     x₂ * x₃ + x₁ ^ 2 * y₁ * y₂ * x₃ ^ 2 * y₃ ^ 3 * d + x₁ ^ 2 * y₁ * y₂ * x₃ ^ 2 * y₃ - x₁
     ^ 2 * y₁ * y₂ * y₃ ^ 3 + x₁ ^ 2 * y₁ * y₂ * y₃ - x₁ * y₁ ^ 2 * x₂ ^ 2 * y₂ * x₃ ^ 3 *
     y₃ ^ 2 * d ^ 2 + x₁ * y₁ ^ 2 * x₂ ^ 2 * y₂ * x₃ * y₃ ^ 2 * d + x₁ * y₁ ^ 2 * x₂ * y₂ ^
     2 * x₃ ^ 2 * y₃ ^ 3 * d ^ 2 + x₁ * y₁ ^ 2 * x₂ * y₂ ^ 2 * x₃ ^ 2 * y₃ * d - x₁ * y₁ ^
     2 * x₂ * x₃ ^ 2 * y₃ ^ 3 * d - x₁ * y₁ ^ 2 * x₂ * x₃ ^ 2 * y₃ + x₁ * y₁ ^ 2 * x₂ * y₃
     ^ 3 - x₁ * y₁ ^ 2 * x₂ * y₃ - x₁ * y₁ ^ 2 * y₂ * x₃ ^ 3 * y₃ ^ 2 * d - x₁ * y₁ ^ 2 *
     y₂ * x₃ ^ 3 + x₁ * y₁ ^ 2 * y₂ * x₃ * y₃ ^ 2 - x₁ * y₁ ^ 2 * y₂ * x₃ - x₁ * x₂ ^ 2 *
     y₂ * x₃ * y₃ ^ 2 * d - x₁ * x₂ * y₂ ^ 2 * x₃ ^ 2 * y₃ * d + x₁ * x₂ * x₃ ^ 2 * y₃ ^ 3
     * d + x₁ * x₂ * x₃ ^ 2 * y₃ - x₁ * x₂ * y₃ ^ 3 + x₁ * x₂ * y₃ + x₁ * y₂ * x₃ ^ 3 * y₃
     ^ 2 * d + x₁ * y₂ * x₃ ^ 3 - x₁ * y₂ * x₃ * y₃ ^ 2 + x₁ * y₂ * x₃ - y₁ ^ 3 * x₂ ^ 2 *
     y₂ * x₃ ^ 2 * y₃ * d - y₁ ^ 3 * x₂ * y₂ ^ 2 * x₃ * y₃ ^ 2 * d - y₁ ^ 3 * x₂ * x₃ ^ 3 *
     y₃ ^ 2 * d - y₁ ^ 3 * x₂ * x₃ ^ 3 + y₁ ^ 3 * x₂ * x₃ * y₃ ^ 2 - y₁ ^ 3 * x₂ * x₃ - y₁
     ^ 3 * y₂ * x₃ ^ 2 * y₃ ^ 3 * d - y₁ ^ 3 * y₂ * x₃ ^ 2 * y₃ + y₁ ^ 3 * y₂ * y₃ ^ 3 - y₁
     ^ 3 * y₂ * y₃ + y₁ * x₂ ^ 2 * y₂ * x₃ ^ 2 * y₃ * d + y₁ * x₂ * y₂ ^ 2 * x₃ * y₃ ^ 2 *
     d + y₁ * x₂ * x₃ ^ 3 * y₃ ^ 2 * d + y₁ * x₂ * x₃ ^ 3 - y₁ * x₂ * x₃ * y₃ ^ 2 + y₁ * x₂
     * x₃ + y₁ * y₂ * x₃ ^ 2 * y₃ ^ 3 * d + y₁ * y₂ * x₃ ^ 2 * y₃ - y₁ * y₂ * y₃ ^ 3 + y₁ *
     y₂ * y₃) * h₂ +
    (-x₁ ^ 3 * x₂ ^ 3 * y₃ - x₁ ^ 3 * x₂ ^ 2 * y₂ * x₃ + x₁ ^ 3 * x₂ * y₂ ^ 2 * y₃ - x₁ ^ 3 * x₂
     * y₃ + x₁ ^ 3 * y₂ ^ 3 * x₃ - x₁ ^ 3 * y₂ * x₃ - x₁ ^ 2 * y₁ * x₂ ^ 3 * x₃ - x₁ ^ 2 *
     y₁ * x₂ ^ 2 * y₂ * y₃ * d - x₁ ^ 2 * y₁ * x₂ ^ 2 * y₂ * y₃ + x₁ ^ 2 * y₁ * x₂ * y₂ ^ 2
     * x₃ * d + x₁ ^ 2 * y₁ * x₂ * y₂ ^ 2 * x₃ - x₁ ^ 2 * y₁ * x₂ * x₃ + x₁ ^ 2 * y₁ * y₂ ^
     3 * y₃ - x₁ ^ 2 * y₁ * y₂ * y₃ + x₁ * y₁ ^ 2 * x₂ ^ 3 * y₃ + x₁ * y₁ ^ 2 * x₂ ^ 2 * y₂
     * x₃ * d + x₁ * y₁ ^ 2 * x₂ ^ 2 * y₂ * x₃ - x₁ * y₁ ^ 2 * x₂ * y₂ ^ 2 * y₃ * d - x₁ *
     y₁ ^ 2 * x₂ * y₂ ^ 2 * y₃ + x₁ * y₁ ^ 2 * x₂ * y₃ - x₁ * y₁ ^ 2 * y₂ ^ 3 * x₃ + x₁ *
     y₁ ^ 2 * y₂ * x₃ - x₁ * x₂ ^ 3 * y₃ - x₁ * x₂ ^ 2 * y₂ * x₃ + x₁ * x₂ * y₂ ^ 2 * y₃ -
     x₁ * x₂ * y₃ + x₁ * y₂ ^ 3 * x₃ - x₁ * y₂ * x₃ + y₁ ^ 3 * x₂ ^ 3 * x₃ + y₁ ^ 3 * x₂ ^
     2 * y₂ * y₃ - y₁ ^ 3 * x₂ * y₂ ^ 2 * x₃ + y₁ ^ 3 * x₂ * x₃ - y₁ ^ 3 * y₂ ^ 3 * y₃ + y₁
     ^ 3 * y₂ * y₃ - y₁ * x₂ ^ 3 * x₃ - y₁ * x₂ ^ 2 * y₂ * y₃ + y₁ * x₂ * y₂ ^ 2 * x₃ - y₁
     * x₂ * x₃ + y₁ * y₂ ^ 3 * y₃ - y₁ * y₂ * y₃) * h₃

end Identities

/-! ## The group -/

@[ext]
structure Point (d : K) where
  x : K
  y : K
  on : OnCurve d x y

namespace Point

variable {d : K}

instance : Zero (Point d) := ⟨⟨0, 1, by unfold OnCurve; ring⟩⟩

instance : Neg (Point d) :=
  ⟨fun P => ⟨-P.x, P.y, by have h := P.on; unfold OnCurve at h ⊢; linear_combination h⟩⟩

@[simp] theorem zero_x : (0 : Point d).x = 0 := rfl
@[simp] theorem zero_y : (0 : Point d).y = 1 := rfl
@[simp] theorem neg_x (P : Point d) : (-P).x = -P.x := rfl
@[simp] theorem neg_y (P : Point d) : (-P).y = P.y := rfl

variable [Complete d]

theorem plus_ne_zero (P Q : Point d) : 1 + d * P.x * Q.x * P.y * Q.y ≠ 0 :=
  one_add_ne_zero P.on Q.on

theorem minus_ne_zero (P Q : Point d) : 1 - d * P.x * Q.x * P.y * Q.y ≠ 0 :=
  one_sub_ne_zero P.on Q.on

theorem onCurve_add (P Q : Point d) :
    OnCurve d ((P.x * Q.y + P.y * Q.x) / (1 + d * P.x * Q.x * P.y * Q.y))
      ((P.y * Q.y + P.x * Q.x) / (1 - d * P.x * Q.x * P.y * Q.y)) := by
  have hG := plus_ne_zero P Q
  have hF := minus_ne_zero P Q
  have hnum := closed_num P.on Q.on rfl rfl rfl rfl
  generalize 1 + d * P.x * Q.x * P.y * Q.y = G at *
  generalize 1 - d * P.x * Q.x * P.y * Q.y = F at *
  generalize P.x * Q.y + P.y * Q.x = E at *
  generalize P.y * Q.y + P.x * Q.x = H at *
  unfold OnCurve
  field_simp
  linear_combination hnum

instance : Add (Point d) := ⟨fun P Q => ⟨_, _, onCurve_add P Q⟩⟩

theorem add_x (P Q : Point d) :
    (P + Q).x = (P.x * Q.y + P.y * Q.x) / (1 + d * P.x * Q.x * P.y * Q.y) := rfl

theorem add_y (P Q : Point d) :
    (P + Q).y = (P.y * Q.y + P.x * Q.x) / (1 - d * P.x * Q.x * P.y * Q.y) := rfl

theorem add_comm' (P Q : Point d) : P + Q = Q + P := by
  refine Point.ext ?_ ?_
  · rw [add_x, add_x]
    congr 1 <;> ring
  · rw [add_y, add_y]
    congr 1 <;> ring

/-- The sum of three points as two fractions. -/
theorem add_add (P Q R : Point d) {E H F G : K} (hE : E = P.x * Q.y + P.y * Q.x)
    (hH : H = P.y * Q.y + P.x * Q.x) (hF : F = 1 - d * P.x * Q.x * P.y * Q.y)
    (hG : G = 1 + d * P.x * Q.x * P.y * Q.y) :
    (P + Q + R).x = (E * F * R.y + H * G * R.x) / (F * G + d * E * H * R.x * R.y) ∧
      (P + Q + R).y = (H * G * R.y + E * F * R.x) / (F * G - d * E * H * R.x * R.y) ∧
        F * G + d * E * H * R.x * R.y ≠ 0 ∧ F * G - d * E * H * R.x * R.y ≠ 0 := by
  have hG0 : G ≠ 0 := hG ▸ plus_ne_zero P Q
  have hF0 : F ≠ 0 := hF ▸ minus_ne_zero P Q
  have hplus := plus_ne_zero (P + Q) R
  have hminus := minus_ne_zero (P + Q) R
  rw [add_x (P + Q) R, add_y (P + Q) R]
  rw [add_x, add_y, ← hE, ← hH, ← hF, ← hG] at hplus hminus ⊢
  have hplus' : 1 + d * (E / G) * R.x * (H / F) * R.y =
      (F * G + d * E * H * R.x * R.y) / (F * G) := by field_simp
  have hminus' : 1 - d * (E / G) * R.x * (H / F) * R.y =
      (F * G - d * E * H * R.x * R.y) / (F * G) := by field_simp
  have hx : E / G * R.y + H / F * R.x = (E * F * R.y + H * G * R.x) / (F * G) := by field_simp
  have hy : H / F * R.y + E / G * R.x = (H * G * R.y + E * F * R.x) / (F * G) := by field_simp
  have hFG : F * G ≠ 0 := mul_ne_zero hF0 hG0
  rw [hplus'] at hplus
  rw [hminus'] at hminus
  rw [hplus', hminus', hx, hy, div_div_div_cancel_right₀ hFG, div_div_div_cancel_right₀ hFG]
  exact ⟨rfl, rfl, fun h => hplus (by rw [h, zero_div]), fun h => hminus (by rw [h, zero_div])⟩

theorem add_assoc' (P Q R : Point d) : P + Q + R = P + (Q + R) := by
  rw [add_comm' P (Q + R)]
  obtain ⟨hx, hy, hplus, hminus⟩ := add_add P Q R rfl rfl rfl rfl
  obtain ⟨hx', hy', hplus', hminus'⟩ := add_add Q R P rfl rfl rfl rfl
  refine Point.ext ?_ ?_
  · rw [hx, hx', div_eq_div_iff hplus hplus']
    exact assoc_x_num P.on Q.on R.on rfl rfl rfl rfl rfl rfl rfl rfl
  · rw [hy, hy', div_eq_div_iff hminus hminus']
    exact assoc_y_num P.on Q.on R.on rfl rfl rfl rfl rfl rfl rfl rfl

theorem zero_add' (P : Point d) : 0 + P = P := by
  refine Point.ext ?_ ?_
  · rw [add_x, zero_x, zero_y]
    simp
  · rw [add_y, zero_x, zero_y]
    simp

theorem neg_add_cancel' (P : Point d) : -P + P = 0 := by
  have hon := P.on
  unfold OnCurve at hon
  refine Point.ext ?_ ?_
  · rw [add_x, neg_x, neg_y, zero_x, show -P.x * P.y + P.y * P.x = 0 by ring, zero_div]
  · have hne := minus_ne_zero (-P) P
    rw [add_y, zero_y, div_eq_one_iff_eq hne]
    rw [neg_x, neg_y]
    linear_combination hon

instance : AddCommGroup (Point d) where
  add_assoc := add_assoc'
  zero_add := zero_add'
  add_zero P := (add_comm' P 0).trans (zero_add' P)
  neg_add_cancel := neg_add_cancel'
  add_comm := add_comm'
  nsmul := nsmulRec
  zsmul := zsmulRec

end Point

end BloblyEmb.Edwards
