import BloblyEmb.Candb.Signal
import BloblyEmb.Lib.Decimal
import Mathlib.Algebra.Order.Field.Basic
import Mathlib.Data.List.TakeWhile

/-!
# The raw values that may be sent

The range that a database declares for a signal is a range of physical values. The raw values in it
are computed without rounding, on the decimals that the database wrote (`tools/candb`).
-/
namespace BloblyEmb.Candb

open Decimal (Spelling natOf)

/-! ## Exact arithmetic -/

/-- `num / den`, where `den` is positive. -/
structure Ratio where
  num : ℤ
  den : ℤ

namespace Ratio

/-- Division of big integers truncates. -/
def floor (r : Ratio) : ℤ :=
  if ¬r.num < 0 then r.num.tdiv r.den else -((-r.num + r.den - 1).tdiv r.den)

def ceil (r : Ratio) : ℤ := -(floor ⟨-r.num, r.den⟩)

end Ratio

/-- Where `c` is in a text, what stands before it and behind it. -/
def cut (c : Char) (t : List Char) : Option (List Char × List Char) :=
  if c ∈ t then some (t.takeWhile (· ≠ c), (t.dropWhile (· ≠ c)).tail) else none

def decimalDigits (t : List Char) : ℕ := natOf (t.map fun c => c.toNat - 48)

/-- A number of digits; zero where it is none. -/
def integerFromString (t : List Char) : ℤ :=
  if t ≠ [] ∧ t.all Char.isDigit then decimalDigits t else 0

/-- The number that a text begins with. -/
def int (t : List Char) : ℤ :=
  match t with
  | '-' :: ds => -(decimalDigits (ds.takeWhile Char.isDigit))
  | '+' :: ds => decimalDigits (ds.takeWhile Char.isDigit)
  | ds => decimalDigits (ds.takeWhile Char.isDigit)

/-- The text of a number as `m * 10 ^ e`. -/
def decOf (t : List Char) : ℤ × ℤ :=
  let (mant, e) :=
    match cut 'e' t with
    | some (mant, e) => (mant, int e)
    | none => (t, 0)
  let neg := decide (mant.head? = some '-')
  let mant := if neg then mant.tail else mant
  let (digits, e) :=
    match cut '.' mant with
    | some (whole, frac) => (whole ++ frac, e - frac.length)
    | none => (mant, e)
  let m := integerFromString digits
  (if neg then -m else m, e)

def pow10 (k : ℤ) : ℤ := 10 ^ k.toNat

/-- `(phys - offset) / factor`. -/
def rawSteps (phys offset factor : ℤ × ℤ) : Ratio :=
  let e := if phys.2 < offset.2 then phys.2 else offset.2
  let num := phys.1 * pow10 (phys.2 - e) - offset.1 * pow10 (offset.2 - e)
  let (n, d) :=
    if factor.2 ≤ e then (num * pow10 (e - factor.2), factor.1)
    else (num, factor.1 * pow10 (factor.2 - e))
  if d < 0 then ⟨-n, -d⟩ else ⟨n, d⟩

/-! ## Floating point -/

/-- The numbers of the machine: how they compare, and how each is spelled in the shortest way that
reads back as it. What that stands for compares as the numbers do. -/
structure Floats (F : Type) where
  zero : F
  lt : F → F → Bool
  str : F → List Char
  spelling : F → Spelling
  str_eq : ∀ x, str x = (spelling x).text
  whole : ∀ x, (spelling x).whole ≠ []
  zero_eq : (spelling zero).value = 0
  lt_iff : ∀ x y, lt x y = true ↔ (spelling x).value < (spelling y).value

namespace Floats

variable {F : Type} (fl : Floats F)

/-- The number that a float was written as. -/
def value (x : F) : ℚ := (fl.spelling x).value

/-- Neither is less. -/
def eq (x y : F) : Bool := !fl.lt x y && !fl.lt y x

def dec (x : F) : ℤ × ℤ := decOf (fl.str x)

end Floats

/-! ## The range -/

structure ScaledSignal (F : Type) extends Signal where
  factor : F
  offset : F
  minimum : F
  maximum : F
  isSigned : Bool

/-- Why a declared range is not used. -/
inductive Note where
  | factorZero
  | inverted
  | noRawValue
deriving DecidableEq

/-- The ends in raw steps, of which the code keeps the nearest floats beside the bits. -/
structure RawRange where
  lo : ℤ
  hi : ℤ
  loRaw : UInt64
  hiRaw : UInt64
  nanRaw : UInt64
  mask : UInt64
  note : Option Note

def bigRaw (v : ℤ) (mask : UInt64) : UInt64 := UInt64.ofInt v &&& mask

namespace ScaledSignal

variable {F : Type} (fl : Floats F) (s : ScaledSignal F)

def mask : UInt64 := if s.length = 64 then ~~~0 else (1 <<< UInt64.ofNat s.length) - 1

/-- The lowest value of the width, its bits, and those of the highest. -/
def width : ℤ × UInt64 × UInt64 :=
  let top : UInt64 := 1 <<< UInt64.ofNat (s.length - 1)
  if s.isSigned then (-(top.toNat : ℤ), top, top - 1) else (0, 0, s.mask)

def top : ℤ := (s.width.2.2.toNat : ℤ)

/-- The ends of the declared range in raw steps, held to the width, or why there are none. -/
def bounds : Except Note (ℤ × ℤ) :=
  let wlo := s.width.1
  let whi := s.top
  if fl.eq s.factor fl.zero then .error .factorZero
  else if fl.lt s.maximum s.minimum then .error .inverted
  else if !fl.eq s.minimum fl.zero || !fl.eq s.maximum fl.zero then
    let turned := fl.lt s.factor fl.zero
    let a := rawSteps (fl.dec (if turned then s.maximum else s.minimum)) (fl.dec s.offset)
      (fl.dec s.factor)
    let z := rawSteps (fl.dec (if turned then s.minimum else s.maximum)) (fl.dec s.offset)
      (fl.dec s.factor)
    let rl := if a.ceil < wlo then wlo else a.ceil
    let rh := if whi < z.floor then whi else z.floor
    if rh < rl then .error .noRawValue else .ok (rl, rh)
  else .ok (wlo, whi)

/-- The range between two ends; an end of the width has the bits of the width's. -/
def between (note : Option Note) (rl rh : ℤ) : RawRange :=
  let loRaw := if rl ≠ s.width.1 then bigRaw rl s.mask else s.width.2.1
  let hiRaw := if rh ≠ s.top then bigRaw rh s.mask else s.width.2.2
  { lo := rl, hi := rh, loRaw := loRaw, hiRaw := hiRaw
    nanRaw := if 0 < rl then loRaw else if rh < 0 then hiRaw else 0
    mask := s.mask
    note := note }

/-- None for a width that no signal has. -/
def rawRange : Option RawRange :=
  if s.length < 1 ∨ 64 < s.length then none
  else
    match s.bounds fl with
    | .error n => some (s.between (some n) s.width.1 s.top)
    | .ok (rl, rh) => some (s.between none rl rh)

/-- The number that raw bits stand for. -/
def meaning (raw : UInt64) : ℤ :=
  if s.isSigned ∧ 2 ^ (s.length - 1) ≤ raw.toNat then (raw.toNat : ℤ) - 2 ^ s.length else raw.toNat

/-- The numbers that the width holds. -/
def Holds (v : ℤ) : Prop :=
  if s.isSigned then -2 ^ (s.length - 1) ≤ v ∧ v < 2 ^ (s.length - 1) else 0 ≤ v ∧ v < 2 ^ s.length

/-- A raw value whose physical value is in the declared range. -/
def InRange (v : ℤ) : Prop :=
  s.Holds v ∧ fl.value s.minimum ≤ v * fl.value s.factor + fl.value s.offset ∧
    v * fl.value s.factor + fl.value s.offset ≤ fl.value s.maximum

end ScaledSignal

/-! ## Texts of numbers -/

theorem cut_append {c : Char} {a : List Char} (h : c ∉ a) (b : List Char) :
    cut c (a ++ c :: b) = some (a, b) := by
  have hne : ∀ x ∈ a, decide (x ≠ c) = true := by
    intro x hx
    rw [decide_eq_true_eq]
    rintro rfl
    exact h hx
  rw [cut, if_pos (List.mem_append_right a List.mem_cons_self),
    List.takeWhile_append_of_pos hne, List.dropWhile_append_of_pos hne]
  simp

theorem cut_of_not_mem {c : Char} {t : List Char} (h : c ∉ t) : cut c t = none := if_neg h

theorem decimalDigits_digitText (l : List (Fin 10)) :
    decimalDigits (Spelling.digitText l) = Decimal.digits l := by
  rw [decimalDigits, Decimal.digits, Spelling.digitText, List.map_map]
  congr 1
  apply List.map_congr_left
  intro d _
  exact Decimal.toNat_digitChar d

theorem isDigit_digitText {c : Char} {l : List (Fin 10)} (h : c ∈ Spelling.digitText l) :
    c.isDigit = true := by
  obtain ⟨d, -, rfl⟩ := List.mem_map.mp h
  have hall : ∀ d : Fin 10, (Spelling.digitChar d).isDigit = true := by decide
  exact hall d

theorem integerFromString_digitText {l : List (Fin 10)} (h : l ≠ []) :
    integerFromString (Spelling.digitText l) = Decimal.digits l := by
  have htext : Spelling.digitText l ≠ [] := fun he => h (List.map_eq_nil_iff.mp he)
  rw [integerFromString, if_pos ⟨htext, List.all_eq_true.mpr fun c hc => isDigit_digitText hc⟩,
    decimalDigits_digitText]

theorem int_signed (neg : Bool) (l : List (Fin 10)) :
    int ((if neg then '-' else '+') :: Spelling.digitText l) =
      if neg then -(Decimal.digits l : ℤ) else Decimal.digits l := by
  have htake : (Spelling.digitText l).takeWhile Char.isDigit = Spelling.digitText l :=
    List.takeWhile_eq_self_iff.mpr fun c hc => isDigit_digitText hc
  cases neg with
  | true => simp only [int, if_true, htake, decimalDigits_digitText]
  | false => simp [int, htake, decimalDigits_digitText]

/-- A spelled number is taken for what it is. -/
theorem decOf_text (sp : Spelling) (h : sp.whole ≠ []) :
    decOf sp.text =
      (if sp.neg then -(Decimal.digits (sp.whole ++ sp.fraction) : ℤ)
        else Decimal.digits (sp.whole ++ sp.fraction), sp.exponent - sp.fraction.length) := by
  have hmant : ∀ c ∈ sp.mantissa, c ≠ 'e' ∧ c ≠ '-' := by
    intro c hc
    rw [Spelling.mantissa, List.mem_append] at hc
    rcases hc with hc | hc
    · have := Decimal.mem_digitText hc
      exact ⟨this.1, this.2.2.1⟩
    · cases hfrac : sp.frac with
      | none => simp [hfrac] at hc
      | some l =>
        simp only [hfrac, List.mem_cons] at hc
        rcases hc with rfl | hc
        · decide
        · have := Decimal.mem_digitText hc
          exact ⟨this.1, this.2.2.1⟩
  have hnoE : 'e' ∉ (if sp.neg then ['-'] else []) ++ sp.mantissa := by
    intro he
    rw [List.mem_append] at he
    rcases he with he | he
    · revert he
      cases sp.neg <;> decide
    · exact (hmant _ he).1 rfl
  have hexp : (match cut 'e' sp.text with
      | some (mant, e) => (mant, int e)
      | none => (sp.text, 0)) =
      ((if sp.neg then ['-'] else []) ++ sp.mantissa, sp.exponent) := by
    rw [Spelling.text, Spelling.exponent]
    cases sp.exp with
    | none =>
      simp only [List.append_nil]
      rw [cut_of_not_mem hnoE]
    | some x =>
      simp only
      rw [cut_append hnoE]
      simp only
      rw [int_signed]
  have hhead : sp.mantissa.head? ≠ some '-' := fun he => (hmant _ (List.mem_of_mem_head? he)).2 rfl
  have hsign : decide (((if sp.neg then ['-'] else []) ++ sp.mantissa).head? = some '-') = sp.neg := by
    cases sp.neg with
    | true => simp
    | false => simpa using hhead
  have hbody : (if sp.neg then ((if sp.neg then ['-'] else []) ++ sp.mantissa).tail
      else (if sp.neg then ['-'] else []) ++ sp.mantissa) = sp.mantissa := by
    cases sp.neg <;> simp
  have hpoint : (match cut '.' sp.mantissa with
      | some (whole, frac) => (whole ++ frac, sp.exponent - frac.length)
      | none => (sp.mantissa, sp.exponent)) =
      (Spelling.digitText (sp.whole ++ sp.fraction), sp.exponent - sp.fraction.length) := by
    have hnoPoint : '.' ∉ Spelling.digitText sp.whole := fun he => (Decimal.mem_digitText he).2.1 rfl
    rw [Spelling.mantissa, Spelling.fraction]
    cases sp.frac with
    | none =>
      simp only [List.append_nil]
      rw [cut_of_not_mem hnoPoint]
      simp
    | some l =>
      simp only
      rw [cut_append hnoPoint]
      simp [Spelling.digitText]
  have hne : sp.whole ++ sp.fraction ≠ [] := List.append_ne_nil_of_left_ne_nil h _
  unfold decOf
  simp only [hexp, hsign, hbody, hpoint, integerFromString_digitText hne]

theorem Floats.dec_value {F : Type} (fl : Floats F) (x : F) :
    ((fl.dec x).1 : ℚ) * 10 ^ (fl.dec x).2 = fl.value x := by
  rw [Floats.dec, fl.str_eq, decOf_text _ (fl.whole x), Floats.value, Spelling.value_eq]
  cases (fl.spelling x).neg <;> simp

/-! ## Steps -/

theorem Ratio.le_floor {r : Ratio} (h : 0 < r.den) (v : ℤ) :
    v ≤ r.floor ↔ (v : ℚ) ≤ (r.num : ℚ) / r.den := by
  have hden : (0 : ℚ) < r.den := by exact_mod_cast h
  rw [le_div_iff₀ hden]
  have hcast : (v : ℚ) * r.den ≤ r.num ↔ v * r.den ≤ r.num := by exact_mod_cast Iff.rfl
  rw [hcast, Ratio.floor]
  split
  case isTrue hpos =>
    rw [Int.tdiv_eq_ediv_of_nonneg (by omega)]
    exact Int.le_ediv_iff_mul_le h
  case isFalse hneg =>
    rw [Int.tdiv_eq_ediv_of_nonneg (by omega), le_neg, Int.ediv_le_iff_le_mul h]
    constructor <;> intro hle <;> linarith

theorem Ratio.ceil_le {r : Ratio} (h : 0 < r.den) (v : ℤ) :
    r.ceil ≤ v ↔ (r.num : ℚ) / r.den ≤ v := by
  have hfloor := Ratio.le_floor (r := ⟨-r.num, r.den⟩) h (-v)
  rw [Ratio.ceil, neg_le, hfloor]
  push_cast
  rw [neg_div, neg_le_neg_iff]

theorem cast_pow10 {k : ℤ} (h : 0 ≤ k) : (pow10 k : ℚ) = 10 ^ k := by
  rw [pow10]
  push_cast
  rw [← zpow_natCast, Int.toNat_of_nonneg h]

/-- The steps are the quotient, with no rounding. -/
theorem rawSteps_value (p o f : ℤ × ℤ) (hf : f.1 ≠ 0) :
    0 < (rawSteps p o f).den ∧
      ((rawSteps p o f).num : ℚ) / (rawSteps p o f).den =
        ((p.1 : ℚ) * 10 ^ p.2 - o.1 * 10 ^ o.2) / (f.1 * 10 ^ f.2) := by
  have hten : (10 : ℚ) ≠ 0 := by norm_num
  have hf' : (f.1 : ℚ) ≠ 0 := by exact_mod_cast hf
  generalize he : (if p.2 < o.2 then p.2 else o.2) = e
  have hep : e ≤ p.2 ∧ e ≤ o.2 := by
    rw [← he]
    split <;> omega
  generalize hnum : p.1 * pow10 (p.2 - e) - o.1 * pow10 (o.2 - e) = num
  have hscaled : (num : ℚ) * 10 ^ e = (p.1 : ℚ) * 10 ^ p.2 - o.1 * 10 ^ o.2 := by
    rw [← hnum]
    push_cast
    rw [cast_pow10 (by omega), cast_pow10 (by omega), zpow_sub₀ hten, zpow_sub₀ hten]
    have hpow : (10 : ℚ) ^ e ≠ 0 := zpow_ne_zero _ hten
    field_simp
  obtain ⟨n, d, hnd, hd, hquot⟩ : ∃ n d : ℤ, (if f.2 ≤ e then (num * pow10 (e - f.2), f.1)
      else (num, f.1 * pow10 (f.2 - e))) = (n, d) ∧ d ≠ 0 ∧
      (n : ℚ) / d = ((p.1 : ℚ) * 10 ^ p.2 - o.1 * 10 ^ o.2) / (f.1 * 10 ^ f.2) := by
    have hpow : (10 : ℚ) ^ e ≠ 0 := zpow_ne_zero _ hten
    have hpow' : (10 : ℚ) ^ f.2 ≠ 0 := zpow_ne_zero _ hten
    rw [← hscaled]
    by_cases hle : f.2 ≤ e
    · refine ⟨_, _, if_pos hle, hf, ?_⟩
      push_cast
      rw [cast_pow10 (by omega), zpow_sub₀ hten]
      field_simp
    · refine ⟨_, _, if_neg hle, mul_ne_zero hf (pow_ne_zero _ (by decide)), ?_⟩
      push_cast
      rw [cast_pow10 (by omega), zpow_sub₀ hten]
      field_simp
  have hsteps : rawSteps p o f = if d < 0 then ⟨-n, -d⟩ else ⟨n, d⟩ := by
    simp only [rawSteps, he, hnum, hnd]
  rw [hsteps]
  split
  case isTrue hneg =>
    refine ⟨by simpa using hneg, ?_⟩
    push_cast
    rw [neg_div_neg_eq, hquot]
  case isFalse hpos =>
    refine ⟨?_, hquot⟩
    simp only
    omega

/-! ## The width -/

namespace ScaledSignal

variable {F : Type} {s : ScaledSignal F}

theorem toNat_sub_one {x : UInt64} (h : 0 < x.toNat) : (x - 1).toNat = x.toNat - 1 := by
  rw [UInt64.toNat_sub_of_le _ _ (UInt64.le_iff_toNat_le.mpr (by rw [UInt64.toNat_one]; omega)),
    UInt64.toNat_one]

theorem toNat_mask (hlen : 1 ≤ s.length ∧ s.length ≤ 64) : s.mask.toNat = 2 ^ s.length - 1 := by
  rw [mask]
  by_cases h64 : s.length = 64
  · rw [if_pos h64, h64]
    decide
  · have hshift := Bits.toNat_one_shift (k := s.length) (by omega)
    rw [if_neg h64, toNat_sub_one (by rw [hshift]; exact Nat.two_pow_pos _), hshift]

theorem toNat_bigRaw (hlen : 1 ≤ s.length ∧ s.length ≤ 64) (v : ℤ) :
    ((bigRaw v s.mask).toNat : ℤ) = v % 2 ^ s.length := by
  have hdvd : (2 : ℤ) ^ s.length ∣ 2 ^ 64 := pow_dvd_pow 2 hlen.2
  rw [bigRaw, UInt64.toNat_and, toNat_mask hlen, Nat.and_two_pow_sub_one_eq_mod]
  have hofInt : ((UInt64.ofInt v).toNat : ℤ) = v % 2 ^ 64 := by
    rw [UInt64.ofInt, UInt64.toNat_ofNat']
    omega
  push_cast
  rw [hofInt, Int.emod_emod_of_dvd _ hdvd]

theorem two_pow_pred (h : 1 ≤ s.length) : (2 : ℤ) ^ s.length = 2 * 2 ^ (s.length - 1) := by
  rw [← pow_succ', Nat.sub_add_cancel h]

/-- The bits of a number of the width stand for it. -/
theorem meaning_bigRaw (hlen : 1 ≤ s.length ∧ s.length ≤ 64) {v : ℤ} (hv : s.Holds v) :
    s.meaning (bigRaw v s.mask) = v := by
  have hraw := toNat_bigRaw hlen v
  have hpow := two_pow_pred hlen.1
  have hpos : (0 : ℤ) < 2 ^ (s.length - 1) := by positivity
  have hcast : ((2 ^ (s.length - 1) : ℕ) : ℤ) = 2 ^ (s.length - 1) := by push_cast; rfl
  have hbits : 2 ^ (s.length - 1) ≤ (bigRaw v s.mask).toNat ↔
      (2 : ℤ) ^ (s.length - 1) ≤ v % 2 ^ s.length := by
    rw [← hraw, ← hcast]
    exact Int.ofNat_le.symm
  rw [meaning, hraw]
  simp only [hbits]
  rw [Holds] at hv
  cases hsigned : s.isSigned with
  | false =>
    simp only [hsigned, Bool.false_eq_true, if_false, false_and] at hv ⊢
    exact Int.emod_eq_of_lt hv.1 hv.2
  | true =>
    simp only [hsigned, if_true, true_and] at hv ⊢
    rcases Int.lt_or_le v 0 with hneg | hnonneg
    · have hmod : v % 2 ^ s.length = v + 2 ^ s.length := by
        rw [← Int.add_emod_right, Int.emod_eq_of_lt (by omega) (by omega)]
      rw [hmod, if_pos (by omega)]
      omega
    · rw [Int.emod_eq_of_lt hnonneg (by omega), if_neg (by omega)]

/-- The ends of the width, and what their bits stand for. -/
theorem width_eq (hlen : 1 ≤ s.length ∧ s.length ≤ 64) :
    (∀ v, s.Holds v ↔ s.width.1 ≤ v ∧ v ≤ s.top) ∧ s.meaning s.width.2.1 = s.width.1 ∧
      s.meaning s.width.2.2 = s.top := by
  have hpow := two_pow_pred hlen.1
  have hpos : (0 : ℤ) < 2 ^ (s.length - 1) := by positivity
  have hshift := Bits.toNat_one_shift (k := s.length - 1) (by omega)
  have hcast : ((2 ^ (s.length - 1) : ℕ) : ℤ) = 2 ^ (s.length - 1) := by push_cast; rfl
  have hnat : 0 < 2 ^ (s.length - 1) := Nat.two_pow_pos _
  cases hsigned : s.isSigned with
  | false =>
    have hmask : (s.mask.toNat : ℤ) = 2 ^ s.length - 1 := by
      rw [toNat_mask hlen]
      have := Nat.two_pow_pos s.length
      push_cast [Nat.cast_sub this]
      rfl
    simp only [Holds, width, top, meaning, hsigned, Bool.false_eq_true, if_false, false_and]
    refine ⟨fun v => ?_, rfl, trivial⟩
    rw [hmask]
    omega
  | true =>
    have htop : (((1 <<< UInt64.ofNat (s.length - 1) : UInt64) - 1).toNat : ℤ) =
        2 ^ (s.length - 1) - 1 := by
      rw [toNat_sub_one (by rw [hshift]; exact hnat), hshift]
      push_cast [Nat.cast_sub hnat]
      rfl
    have hless : ¬2 ^ (s.length - 1) ≤ ((1 <<< UInt64.ofNat (s.length - 1) : UInt64) - 1).toNat := by
      rw [toNat_sub_one (by rw [hshift]; exact hnat), hshift]
      omega
    simp only [Holds, width, top, meaning, hsigned, if_true, true_and, hshift, htop, hless,
      le_refl, if_false, hcast]
    refine ⟨fun v => ?_, ?_, ?_⟩
    · omega
    · omega
    · trivial

/-! ## The range is exact -/

section Exact

variable (fl : Floats F)

/-- The ends of the declared range, before they are held to the width. -/
def ends (s : ScaledSignal F) : Ratio × Ratio :=
  let turned := fl.lt s.factor fl.zero
  (rawSteps (fl.dec (if turned then s.maximum else s.minimum)) (fl.dec s.offset) (fl.dec s.factor),
    rawSteps (fl.dec (if turned then s.minimum else s.maximum)) (fl.dec s.offset)
      (fl.dec s.factor))

theorem ends_exact (hfactor : fl.value s.factor ≠ 0) (v : ℤ) :
    ((s.ends fl).1.ceil ≤ v ∧ v ≤ (s.ends fl).2.floor) ↔
      fl.value s.minimum ≤ v * fl.value s.factor + fl.value s.offset ∧
        v * fl.value s.factor + fl.value s.offset ≤ fl.value s.maximum := by
  have hf : (fl.dec s.factor).1 ≠ 0 := by
    intro h
    rw [← fl.dec_value, h] at hfactor
    simp at hfactor
  have hlt : fl.lt s.factor fl.zero = true ↔ fl.value s.factor < 0 := by
    rw [fl.lt_iff, fl.zero_eq]
    rfl
  have hsteps : ∀ x, 0 < (rawSteps (fl.dec x) (fl.dec s.offset) (fl.dec s.factor)).den ∧
      ((rawSteps (fl.dec x) (fl.dec s.offset) (fl.dec s.factor)).num : ℚ) /
        (rawSteps (fl.dec x) (fl.dec s.offset) (fl.dec s.factor)).den =
        (fl.value x - fl.value s.offset) / fl.value s.factor := by
    intro x
    have h := rawSteps_value (fl.dec x) (fl.dec s.offset) (fl.dec s.factor) hf
    rwa [fl.dec_value, fl.dec_value, fl.dec_value] at h
  simp only [ends]
  rw [Ratio.ceil_le (hsteps _).1, Ratio.le_floor (hsteps _).1, (hsteps _).2, (hsteps _).2]
  rcases lt_or_gt_of_ne hfactor with hneg | hpos
  · simp only [hlt.mpr hneg, if_true]
    rw [div_le_iff_of_neg hneg, le_div_iff_of_neg hneg]
    constructor <;> rintro ⟨h1, h2⟩ <;> constructor <;> linarith
  · have hno : fl.lt s.factor fl.zero = false := by
      rw [← Bool.not_eq_true, hlt]
      exact not_lt_of_gt hpos
    simp only [hno, Bool.false_eq_true, if_false]
    rw [div_le_iff₀ hpos, le_div_iff₀ hpos]
    constructor <;> rintro ⟨h1, h2⟩ <;> constructor <;> linarith

theorem eq_zero_iff (x : F) : fl.eq x fl.zero = true ↔ fl.value x = 0 := by
  have hlt : fl.lt x fl.zero = true ↔ fl.value x < 0 := by
    rw [fl.lt_iff, fl.zero_eq]
    rfl
  have hgt : fl.lt fl.zero x = true ↔ 0 < fl.value x := by
    rw [fl.lt_iff, fl.zero_eq]
    rfl
  rw [Floats.eq, Bool.and_eq_true, Bool.not_eq_true', Bool.not_eq_true', ← Bool.not_eq_true,
    ← Bool.not_eq_true, hlt, hgt, not_lt, not_lt]
  constructor
  · rintro ⟨h1, h2⟩
    exact le_antisymm h2 h1
  · intro h
    rw [h]
    exact ⟨le_refl _, le_refl _⟩

/-- A declared range: its factor is not zero, its ends are in order and not both zero. -/
structure Declared (s : ScaledSignal F) : Prop where
  length : 1 ≤ s.length ∧ s.length ≤ 64
  factor : fl.value s.factor ≠ 0
  order : fl.value s.minimum ≤ fl.value s.maximum
  given : ¬(fl.value s.minimum = 0 ∧ fl.value s.maximum = 0)

/-- The bits of the ends are those of the declared range, or of the width where no raw value is in
it; then the note says so. -/
structure Exact (s : ScaledSignal F) (r : RawRange) : Prop where
  some : (∃ v, s.InRange fl v) → r.note = none ∧
    ∀ v, s.meaning r.loRaw ≤ v ∧ v ≤ s.meaning r.hiRaw ↔ s.InRange fl v
  none : (¬∃ v, s.InRange fl v) → r.note ≠ none ∧
    ∀ v, s.meaning r.loRaw ≤ v ∧ v ≤ s.meaning r.hiRaw ↔ s.Holds v

variable {fl}

theorem bounds_eq (h : s.Declared fl) :
    s.bounds fl =
      if min s.top (s.ends fl).2.floor < max s.width.1 (s.ends fl).1.ceil then .error .noRawValue
      else .ok (max s.width.1 (s.ends fl).1.ceil, min s.top (s.ends fl).2.floor) := by
  have hfactor : ¬fl.eq s.factor fl.zero = true := fun he => h.factor ((eq_zero_iff fl _).mp he)
  have horder : ¬fl.lt s.maximum s.minimum = true := by
    rw [fl.lt_iff]
    exact not_lt_of_ge h.order
  have hgiven : (!fl.eq s.minimum fl.zero || !fl.eq s.maximum fl.zero) = true := by
    by_contra hno
    rw [Bool.or_eq_true, not_or, Bool.not_eq_true', Bool.not_eq_true', Bool.not_eq_false,
      Bool.not_eq_false, eq_zero_iff, eq_zero_iff] at hno
    exact h.given hno
  have hmax : ∀ a b : ℤ, (if b < a then a else b) = max a b := by
    intro a b
    split <;> omega
  have hmin : ∀ a b : ℤ, (if a < b then a else b) = min a b := by
    intro a b
    split <;> omega
  unfold bounds
  rw [if_neg hfactor, if_neg horder, if_pos hgiven]
  simp only [hmax, hmin, ends]
  rfl

/-- The range of a signal with a declared range is exact. -/
theorem rawRange_exact (fl : Floats F) (s : ScaledSignal F) (h : s.Declared fl) :
    ∃ r, s.rawRange fl = some r ∧ s.Exact fl r := by
  obtain ⟨hwidth, hlo, hhi⟩ := width_eq h.length
  have hlen : ¬(s.length < 1 ∨ 64 < s.length) := by
    have := h.length
    omega
  have hin : ∀ v, s.InRange fl v ↔
      max s.width.1 (s.ends fl).1.ceil ≤ v ∧ v ≤ min s.top (s.ends fl).2.floor := by
    intro v
    rw [InRange, hwidth, ← ends_exact fl h.factor, max_le_iff, le_min_iff]
    tauto
  -- an end that is the width's has the width's bits, another one those of its number
  have hends : ∀ v, s.Holds v →
      s.meaning (if v ≠ s.width.1 then bigRaw v s.mask else s.width.2.1) = v ∧
        s.meaning (if v ≠ s.top then bigRaw v s.mask else s.width.2.2) = v := by
    intro v hv
    constructor
    · by_cases he : v = s.width.1
      · rw [if_neg (not_not.mpr he), hlo, he]
      · rw [if_pos he, meaning_bigRaw h.length hv]
    · by_cases he : v = s.top
      · rw [if_neg (not_not.mpr he), hhi, he]
      · rw [if_pos he, meaning_bigRaw h.length hv]
  rw [rawRange, if_neg hlen, bounds_eq h]
  by_cases hempty : min s.top (s.ends fl).2.floor < max s.width.1 (s.ends fl).1.ceil
  · rw [if_pos hempty]
    have hnone : ¬∃ v, s.InRange fl v := by
      rintro ⟨v, hv⟩
      have := (hin v).mp hv
      omega
    refine ⟨s.between (some .noRawValue) s.width.1 s.top, rfl, fun hsome => absurd hsome hnone,
      fun _ => ⟨by simp [between], fun v => ?_⟩⟩
    simp only [between, ne_eq, not_true_eq_false, if_false]
    rw [hlo, hhi, hwidth]
  · rw [if_neg hempty]
    have hsome : ∃ v, s.InRange fl v := ⟨_, (hin _).mpr ⟨le_refl _, not_lt.mp hempty⟩⟩
    have hlower := ((hin _).mpr ⟨le_refl _, not_lt.mp hempty⟩).1
    have hupper := ((hin _).mpr ⟨not_lt.mp hempty, le_refl _⟩).1
    refine ⟨s.between none _ _, rfl, fun _ => ⟨rfl, fun v => ?_⟩, fun hno => absurd hsome hno⟩
    simp only [between]
    rw [(hends _ hlower).1, (hends _ hupper).2, hin]

end Exact

/-- Spellings themselves as floats. -/
def spelled : Floats { sp : Spelling // sp.whole ≠ [] } where
  zero := ⟨{ neg := false, whole := [0], frac := some [0], exp := none }, by decide⟩
  lt x y := decide (x.1.value < y.1.value)
  str x := x.1.text
  spelling x := x.1
  str_eq _ := rfl
  whole x := x.2
  zero_eq := by simp [Spelling.value, Spelling.fraction, Spelling.exponent, Decimal.digits, natOf]
  lt_iff _ _ := decide_eq_true_iff

/-- A level from 0 to 49.9, counted down from 100 in halves. -/
def level : ScaledSignal { sp : Spelling // sp.whole ≠ [] } where
  startBit := 0
  length := 8
  byteOrder := .littleEndian
  factor := ⟨{ neg := true, whole := [0], frac := some [5], exp := none }, by decide⟩
  offset := ⟨{ neg := false, whole := [1, 0, 0], frac := some [0], exp := none }, by decide⟩
  minimum := spelled.zero
  maximum := ⟨{ neg := false, whole := [4, 9], frac := some [9], exp := none }, by decide⟩
  isSigned := false

theorem declared_level : level.Declared spelled := by
  have hfour : ((4 : Fin 10) : ℕ) = 4 := rfl
  have hnine : ((9 : Fin 10) : ℕ) = 9 := rfl
  constructor <;> simp [level, spelled, Floats.value, Spelling.value, Spelling.fraction,
    Spelling.exponent, Decimal.digits, natOf, hfour, hnine] <;> norm_num

theorem rawRange_exact_level :
    level.Declared spelled ∧ ∃ r, level.rawRange spelled = some r ∧ level.Exact spelled r :=
  ⟨declared_level, rawRange_exact spelled level declared_level⟩

end ScaledSignal

end BloblyEmb.Candb
