import Mathlib.Algebra.BigOperators.Fin
import Mathlib.Algebra.BigOperators.Ring.Finset
import Mathlib.Algebra.Order.BigOperators.Group.Finset
import Mathlib.Algebra.Order.Ring.Abs
import Mathlib.Algebra.Order.Ring.Int
import Mathlib.Tactic.Common
import Mathlib.Tactic.Linarith
import Mathlib.Tactic.Ring

/-!
# Limbs

A number held as limbs to a base, lowest limb first. A limb may be negative or exceed the base;
limbs that do not are digits, and digits are determined by their number.
-/
namespace BloblyEmb.Limbs

variable {n : ℕ} {β : ℤ}

/-- The number that the limbs `a` to the base `β` stand for. -/
def value (β : ℤ) (a : Fin n → ℤ) : ℤ := ∑ i, a i * β ^ (i : ℕ)

/-- Every limb is at most `M` in magnitude. -/
def Within (M : ℤ) (a : Fin n → ℤ) : Prop := ∀ i, -M ≤ a i ∧ a i ≤ M

/-- Every limb is a digit. -/
def Digits (β : ℤ) (a : Fin n → ℤ) : Prop := ∀ i, 0 ≤ a i ∧ a i < β

instance (M : ℤ) (a : Fin n → ℤ) : Decidable (Within M a) :=
  inferInstanceAs (Decidable (∀ i, -M ≤ a i ∧ a i ≤ M))

/-! ## The number -/

theorem value_succ (a : Fin (n + 1) → ℤ) :
    value β a = a 0 + β * value β fun i => a i.succ := by
  simp only [value, Fin.sum_univ_succ, Finset.mul_sum, Fin.val_zero, pow_zero, mul_one,
    Fin.val_succ, pow_succ]
  congr 1
  refine Finset.sum_congr rfl fun i _ => ?_
  ring

theorem value_castSucc (a : Fin (n + 1) → ℤ) :
    value β a = value β (fun i => a i.castSucc) + a (Fin.last n) * β ^ n := by
  simp [value, Fin.sum_univ_castSucc]

theorem value_add (a b : Fin n → ℤ) : value β (fun i => a i + b i) = value β a + value β b := by
  simp [value, add_mul, Finset.sum_add_distrib]

theorem value_sub (a b : Fin n → ℤ) : value β (fun i => a i - b i) = value β a - value β b := by
  simp [value, sub_mul, Finset.sum_sub_distrib]

theorem value_update (a : Fin n → ℤ) (i : Fin n) (x : ℤ) :
    value β (Function.update a i x) = value β a + (x - a i) * β ^ (i : ℕ) := by
  have h : ∀ j, Function.update a i x j * β ^ (j : ℕ) =
      a j * β ^ (j : ℕ) + if j = i then (x - a i) * β ^ (i : ℕ) else 0 := by
    intro j
    by_cases hj : j = i
    · subst hj
      simp only [Function.update_self, if_true]
      ring
    · simp [hj]
  simp [value, h, Finset.sum_add_distrib]

/-- Carrying `c` from limb `i` into the next leaves the number as it is. -/
theorem value_carry (a : Fin n → ℤ) {i j : Fin n} (hj : (j : ℕ) = i + 1) (c : ℤ) :
    value β (Function.update (Function.update a j (a j + c)) i (a i - c * β)) = value β a := by
  have hne : i ≠ j := by
    intro h
    subst h
    omega
  rw [value_update, value_update, Function.update_of_ne hne, hj, pow_succ]
  ring

/-- Limbs split in two, low half first, stand for the same number to the base of the halves. -/
theorem value_halves (lo hi : ℕ → ℤ) :
    value β (fun k : Fin (2 * n) => if (k : ℕ) % 2 = 0 then lo (k / 2) else hi (k / 2)) =
      value (β * β) fun i : Fin n => lo i + β * hi i := by
  induction n with
  | zero => rfl
  | succ n ih =>
    have heven : 2 * n / 2 = n := by omega
    have hodd : (2 * n + 1) / 2 = n := by omega
    rw [show 2 * (n + 1) = 2 * n + 1 + 1 from rfl, value_castSucc, value_castSucc,
      value_castSucc (β := β * β)]
    simp only [Fin.val_castSucc, Fin.val_last, Nat.mul_mod_right, if_true, Nat.mul_add_mod,
      Nat.mod_succ, one_ne_zero, if_false, heven, hodd, ← ih, mul_pow, pow_succ, pow_mul]
    ring

/-! ## Bounds -/

theorem Within.mono {M N : ℤ} {a : Fin n → ℤ} (h : Within M a) (hMN : M ≤ N) : Within N a := by
  intro i
  have := h i
  omega

theorem Within.add {M N : ℤ} {a b : Fin n → ℤ} (ha : Within M a) (hb : Within N b) :
    Within (M + N) fun i => a i + b i := by
  intro i
  have h1 := ha i
  have h2 := hb i
  constructor <;> dsimp only <;> omega

theorem Within.sub {M N : ℤ} {a b : Fin n → ℤ} (ha : Within M a) (hb : Within N b) :
    Within (M + N) fun i => a i - b i := by
  intro i
  have h1 := ha i
  have h2 := hb i
  constructor <;> dsimp only <;> omega

theorem Within.mul {M N : ℤ} {a b : Fin n → ℤ} (ha : Within M a) (hb : Within N b) (i j : Fin n) :
    -(M * N) ≤ a i * b j ∧ a i * b j ≤ M * N := by
  have h : |a i * b j| ≤ M * N := by
    rw [abs_mul]
    have hM : |a i| ≤ M := abs_le.mpr (ha i)
    have hN : |b j| ≤ N := abs_le.mpr (hb j)
    exact mul_le_mul hM hN (abs_nonneg _) ((abs_nonneg _).trans hM)
  exact abs_le.mp h

theorem Within.value {M : ℤ} {a : Fin n → ℤ} (h : Within M a) (hβ : 0 ≤ β) :
    -(M * ∑ i : Fin n, β ^ (i : ℕ)) ≤ value β a ∧ value β a ≤ M * ∑ i : Fin n, β ^ (i : ℕ) := by
  have hpow : ∀ i : Fin n, 0 ≤ β ^ (i : ℕ) := fun i => pow_nonneg hβ _
  rw [Finset.mul_sum, ← Finset.sum_neg_distrib]
  constructor
  · refine Finset.sum_le_sum fun i _ => ?_
    rw [← neg_mul]
    exact mul_le_mul_of_nonneg_right (h i).1 (hpow i)
  · refine Finset.sum_le_sum fun i _ => ?_
    exact mul_le_mul_of_nonneg_right (h i).2 (hpow i)

/-! ## Digits -/

theorem Digits.value_nonneg {a : Fin n → ℤ} (h : Digits β a) (hβ : 0 ≤ β) : 0 ≤ value β a :=
  Finset.sum_nonneg fun i _ => mul_nonneg (h i).1 (pow_nonneg hβ _)

theorem Digits.value_lt {a : Fin n → ℤ} (h : Digits β a) : value β a < β ^ n := by
  induction n with
  | zero => simp [value]
  | succ n ih =>
    have hβ : 0 < β := (h 0).1.trans_lt (h 0).2
    have hlow := (h 0).2
    have htail : value β (fun i => a i.succ) + 1 ≤ β ^ n := ih fun i => h i.succ
    calc value β a = a 0 + β * value β fun i => a i.succ := value_succ a
      _ < β + β * value β fun i => a i.succ := by linarith
      _ = β * (value β (fun i => a i.succ) + 1) := by ring
      _ ≤ β * β ^ n := mul_le_mul_of_nonneg_left htail hβ.le
      _ = β ^ (n + 1) := by ring

/-- Digits are determined by their number. -/
theorem Digits.eq_of_value_eq {a b : Fin n → ℤ} (ha : Digits β a) (hb : Digits β b)
    (h : value β a = value β b) : a = b := by
  induction n with
  | zero => exact funext fun i => i.elim0
  | succ n ih =>
    have hβ : 0 < β := (ha 0).1.trans_lt (ha 0).2
    have hmod := congrArg (· % β) h
    simp only [value_succ, Int.add_mul_emod_self_left, Int.emod_eq_of_lt (ha 0).1 (ha 0).2,
      Int.emod_eq_of_lt (hb 0).1 (hb 0).2] at hmod
    have hdiv : value β (fun i => a i.succ) = value β fun i => b i.succ := by
      rw [value_succ, value_succ, hmod] at h
      exact mul_left_cancel₀ hβ.ne' (add_left_cancel h)
    have htail := ih (fun i => ha i.succ) (fun i => hb i.succ) hdiv
    ext i
    refine Fin.cases hmod (fun i => ?_) i
    exact congrFun htail i

end BloblyEmb.Limbs
