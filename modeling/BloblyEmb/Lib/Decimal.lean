import Mathlib.Data.Rat.Cast.Order
import Mathlib.Tactic.FieldSimp
import Mathlib.Tactic.Linarith
import Mathlib.Tactic.Ring

/-!
# Decimals

A number as it is spelled, with a sign, digits before and behind a point and an exponent, and the
number that this stands for. A text of digits is read from its highest.
-/
namespace BloblyEmb.Decimal

/-- What digits stand for, the highest first. -/
def natOf (l : List ℕ) : ℕ := l.foldl (fun n d => 10 * n + d) 0

structure Spelling where
  neg : Bool
  whole : List (Fin 10)
  /-- Behind the point, if there is one. -/
  frac : Option (List (Fin 10))
  /-- The sign of the exponent and its digits, if there is one. -/
  exp : Option (Bool × List (Fin 10))

def digits (l : List (Fin 10)) : ℕ := natOf (l.map Fin.val)

namespace Spelling

def exponent (s : Spelling) : ℤ :=
  match s.exp with
  | none => 0
  | some (neg, l) => if neg then -(digits l : ℤ) else digits l

def fraction (s : Spelling) : List (Fin 10) := s.frac.getD []

def value (s : Spelling) : ℚ :=
  (if s.neg then -1 else 1) * (digits s.whole + digits s.fraction / 10 ^ s.fraction.length) *
    10 ^ s.exponent

def digitChar (d : Fin 10) : Char := Char.ofNat (48 + d)

def digitText (l : List (Fin 10)) : List Char := l.map digitChar

/-- The text before the exponent, without the sign. -/
def mantissa (s : Spelling) : List Char :=
  digitText s.whole ++ match s.frac with
    | none => []
    | some l => '.' :: digitText l

def text (s : Spelling) : List Char :=
  ((if s.neg then ['-'] else []) ++ s.mantissa) ++ match s.exp with
    | none => []
    | some (neg, l) => 'e' :: (if neg then '-' else '+') :: digitText l

end Spelling

/-! ## Digits -/

theorem natOf_append (l l' : List ℕ) : natOf (l ++ l') = natOf l * 10 ^ l'.length + natOf l' := by
  have h : ∀ (l : List ℕ) (n : ℕ), l.foldl (fun n d => 10 * n + d) n =
      n * 10 ^ l.length + natOf l := by
    intro l
    induction l with
    | nil => intro n; simp [natOf]
    | cons d l ih =>
      intro n
      rw [natOf, List.foldl_cons, List.foldl_cons, ih, ih (10 * 0 + d), List.length_cons]
      ring
  rw [natOf, List.foldl_append, h]
  rfl

theorem digits_append (l l' : List (Fin 10)) :
    digits (l ++ l') = digits l * 10 ^ l'.length + digits l' := by
  rw [digits, List.map_append, natOf_append, List.length_map]
  rfl

/-- A spelled number is its digits without the point, and an exponent for where the point was. -/
theorem Spelling.value_eq (s : Spelling) :
    s.value = (if s.neg then -1 else 1) * (digits (s.whole ++ s.fraction) : ℚ) *
      10 ^ (s.exponent - s.fraction.length) := by
  have hten : (10 : ℚ) ≠ 0 := by norm_num
  have hpow : (10 : ℚ) ^ s.fraction.length ≠ 0 := pow_ne_zero _ hten
  rw [value, digits_append, zpow_sub₀ hten, zpow_natCast]
  push_cast
  field_simp

theorem toNat_digitChar (d : Fin 10) : (Spelling.digitChar d).toNat - 48 = d := by
  revert d
  decide

theorem mem_digitText {c : Char} {l : List (Fin 10)} (h : c ∈ Spelling.digitText l) :
    c ≠ 'e' ∧ c ≠ '.' ∧ c ≠ '-' ∧ c ≠ '+' := by
  obtain ⟨d, -, rfl⟩ := List.mem_map.mp h
  have hall : ∀ d : Fin 10, Spelling.digitChar d ≠ 'e' ∧ Spelling.digitChar d ≠ '.' ∧
      Spelling.digitChar d ≠ '-' ∧ Spelling.digitChar d ≠ '+' := by decide
  exact hall d

end BloblyEmb.Decimal
