import Mathlib.Data.Int.ModEq
import BloblyEmb.Lib.Limbs
import BloblyEmb.Lib.Loop

/-!
# Field arithmetic of the signature check

A field element is sixteen signed limbs to the base `2 ^ 16`. Sums and differences are taken limb
by limb and not carried; a product is folded at `2 ^ 256` and carried twice. Every machine
operation is checked: the model has no result where an `i64` would overflow.
-/
namespace BloblyEmb.Bcrypto

open Limbs

/-- The prime of the field. -/
def prime : ℤ := 2 ^ 255 - 19

scoped instance neZero_sixteen : NeZero 16 := ⟨by decide⟩

/-- A field element: sixteen limbs. -/
abbrev Gf := Fin 16 → ℤ

/-- The number that a field element stands for. -/
abbrev Gf.num (a : Gf) : ℤ := value 65536 a

/-- The result `x` of an `i64` operation, none when it overflows. -/
def i64 (x : ℤ) : Option ℤ := if -2 ^ 63 ≤ x ∧ x < 2 ^ 63 then some x else none

def set25519 (a : Gf) : Gf := fun i => a i

/-- The pass of `car25519` at limb `i`. -/
def carLimb (o : Gf) (i : Fin 16) : Option Gf := do
  let x ← i64 (o i + 65536)
  let o := Function.update o i x
  let c := o i / 65536
  let d ← i64 (c - 1)
  let o ← if h : (i : ℕ) < 15 then do
      let y ← i64 (o ⟨i + 1, by omega⟩ + d)
      pure (Function.update o ⟨i + 1, by omega⟩ y)
    else do
      let e ← i64 (38 * d)
      let y ← i64 (o 0 + e)
      pure (Function.update o 0 y)
  let e ← i64 (c * 65536)
  let z ← i64 (o i - e)
  pure (Function.update o i z)

def car25519 (o : Gf) : Option Gf := (List.finRange 16).foldlM carLimb o

def a_gf (a b : Gf) : Option Gf :=
  (List.finRange 16).foldlM (fun o i => do
    let x ← i64 (a i + b i)
    pure (Function.update o i x)) fun _ => 0

def z_gf (a b : Gf) : Option Gf :=
  (List.finRange 16).foldlM (fun o i => do
    let x ← i64 (a i - b i)
    pure (Function.update o i x)) fun _ => 0

/-- The inner pass of `m_gf`: limb `i` of one factor times limb `j` of the other. -/
def mulLimb (a b : Gf) (i : Fin 16) (t : Fin 31 → ℤ) (j : Fin 16) : Option (Fin 31 → ℤ) := do
  let x ← i64 (a i * b j)
  let y ← i64 (t ⟨i + j, by omega⟩ + x)
  pure (Function.update t ⟨i + j, by omega⟩ y)

/-- The pass of `m_gf` that folds limb `i + 16` down to limb `i`. -/
def foldLimb (t : Fin 31 → ℤ) (i : Fin 15) : Option (Fin 31 → ℤ) := do
  let x ← i64 (38 * t ⟨i + 16, by omega⟩)
  let y ← i64 (t ⟨i, by omega⟩ + x)
  pure (Function.update t ⟨i, by omega⟩ y)

def m_gf (a b : Gf) : Option Gf := do
  let t ← (List.finRange 16).foldlM (fun t i => (List.finRange 16).foldlM (mulLimb a b i) t)
    fun _ => 0
  let t ← (List.finRange 15).foldlM foldLimb t
  let o : Gf := fun i => t ⟨i, by omega⟩
  let o ← car25519 o
  car25519 o

def s_gf (a : Gf) : Option Gf := m_gf a a

/-! ## Machine arithmetic -/

theorem i64_of_le {x : ℤ} (h : -2 ^ 63 ≤ x) (h' : x < 2 ^ 63) : i64 x = some x := if_pos ⟨h, h'⟩

theorem i64_within {x M : ℤ} (h : -M ≤ x ∧ x ≤ M) (hM : M < 2 ^ 63) : i64 x = some x :=
  i64_of_le (by omega) (by omega)

/-! ## Carrying -/

/-- What the pass at `i < 15` does: the multiple of the base in limb `i` moves into the next. -/
theorem carLimb_low {o : Gf} {i j : Fin 16} (hj : (j : ℕ) = i + 1)
    (hi : -2 ^ 61 ≤ o i ∧ o i ≤ 2 ^ 61) (hnext : -2 ^ 61 ≤ o j ∧ o j ≤ 2 ^ 61) :
    carLimb o i = some (Function.update (Function.update o j (o j + o i / 65536)) i
      (o i - o i / 65536 * 65536)) := by
  have hlt : (i : ℕ) < 15 := by omega
  have hjeq : (⟨i + 1, by omega⟩ : Fin 16) = j := Fin.ext hj.symm
  have hne : i ≠ j := by
    intro h
    subst h
    omega
  have hc : (o i + 65536) / 65536 = o i / 65536 + 1 := by omega
  simp only [carLimb, hlt, dif_pos, hjeq, Function.update_self, Function.update_of_ne hne.symm]
  rw [i64_of_le (by omega) (by omega)]
  simp only [Option.bind_eq_bind, Option.bind_some, hc]
  rw [i64_of_le (by omega) (by omega)]
  simp only [Option.bind_some]
  rw [i64_of_le (by omega) (by omega)]
  simp only [Option.bind_some, Option.pure_def, Function.update_of_ne hne, Function.update_self]
  rw [i64_of_le (by omega) (by omega)]
  simp only [Option.bind_some]
  rw [i64_of_le (by omega) (by omega)]
  simp only [Option.bind_some, Option.some.injEq]
  rw [Function.update_comm hne, Function.update_idem]
  congr 1
  · congr 1
    omega
  · omega

/-- What the pass at the last limb does: `2 ^ 256` wraps round to 38. -/
theorem carLimb_last {o : Gf} (hi : -2 ^ 61 ≤ o 15 ∧ o 15 ≤ 2 ^ 61)
    (h0 : -2 ^ 61 ≤ o 0 ∧ o 0 ≤ 2 ^ 61) :
    carLimb o 15 = some (Function.update (Function.update o 0 (o 0 + 38 * (o 15 / 65536))) 15
      (o 15 % 65536)) := by
  have hne : (15 : Fin 16) ≠ 0 := by decide
  have hc : (o 15 + 65536) / 65536 = o 15 / 65536 + 1 := by omega
  simp only [carLimb, show ¬((15 : Fin 16) : ℕ) < 15 by decide, dif_neg, not_false_eq_true]
  rw [i64_of_le (by omega) (by omega)]
  simp only [Option.bind_eq_bind, Option.bind_some, Function.update_self, hc,
    Function.update_of_ne hne.symm]
  rw [i64_of_le (by omega) (by omega)]
  simp only [Option.bind_some]
  rw [i64_of_le (by omega) (by omega)]
  simp only [Option.bind_some]
  rw [i64_of_le (by omega) (by omega)]
  simp only [Option.bind_some, Option.pure_def, Function.update_of_ne hne, Function.update_self]
  rw [i64_of_le (by omega) (by omega)]
  simp only [Option.bind_some]
  rw [i64_of_le (by omega) (by omega)]
  simp only [Option.bind_some, Option.some.injEq]
  rw [Function.update_comm hne, Function.update_idem]
  congr 1
  · congr 1
    omega
  · omega

/-- The state of `car25519` before the pass at limb `k`: the limbs below are digits, those above
still as they were, and the number is unchanged. -/
structure Carried (o : Gf) (k : ℕ) (r : Gf) : Prop where
  num : r.num = o.num
  below : ∀ j : Fin 16, (j : ℕ) < k → 0 ≤ r j ∧ r j < 65536
  here : ∀ j : Fin 16, (j : ℕ) = k → -2 ^ 57 ≤ r j ∧ r j ≤ 2 ^ 57
  above : ∀ j : Fin 16, k < (j : ℕ) → r j = o j

theorem Carried.step {o r : Gf} (ho : Within (2 ^ 56) o) (k : Fin 15) (h : Carried o k r) :
    ∃ r', carLimb r k.castSucc = some r' ∧ Carried o (k + 1) r' := by
  have hk := h.here k.castSucc rfl
  have hs : r k.succ = o k.succ := h.above k.succ (by simp)
  have hs' := ho k.succ
  refine ⟨_, carLimb_low (j := k.succ) (by simp) (by omega) (by omega), ?_, ?_, ?_, ?_⟩
  · exact (value_carry r (by simp) _).trans h.num
  · intro j hj
    by_cases hjk : j = k.castSucc
    · subst hjk
      rw [Function.update_self]
      omega
    · have hne : (j : ℕ) ≠ k := fun he => hjk (Fin.ext he)
      have hne' : j ≠ k.succ := by
        intro he
        subst he
        simp at hj
      rw [Function.update_of_ne hjk, Function.update_of_ne hne']
      exact h.below j (by omega)
  · intro j hj
    obtain rfl : j = k.succ := Fin.ext (by simpa using hj)
    rw [Function.update_of_ne (by simp [Fin.ext_iff]), Function.update_self]
    omega
  · intro j hj
    rw [Function.update_of_ne (by rintro rfl; simp at hj),
      Function.update_of_ne (by rintro rfl; simp at hj)]
    exact h.above j (by omega)

/-- `r` is `o` after one `car25519`: what exceeds `2 ^ 256` is added to limb 0, 38 times, and all else
is digits. -/
structure Wrapped (o r : Gf) : Prop where
  num : r.num = o.num % 2 ^ 256 + 38 * (o.num / 2 ^ 256)
  first : 0 ≤ r 0 - 38 * (o.num / 2 ^ 256) ∧ r 0 - 38 * (o.num / 2 ^ 256) < 65536
  rest : Digits 65536 fun i : Fin 15 => r i.succ

theorem car25519_spec {o : Gf} (ho : Within (2 ^ 56) o) : ∃ r, car25519 o = some r ∧ Wrapped o r := by
  have h0 : Carried o 0 o := by
    refine ⟨rfl, fun j hj => absurd hj (by omega), fun j _ => ?_, fun j _ => rfl⟩
    have := ho j
    omega
  obtain ⟨r, hr, h⟩ := Loop.foldlM_finRange_induction (f := fun s k => carLimb s k.castSucc) h0
    fun k r hr => hr.step ho k
  have h15 := h.here 15 rfl
  have hlow := h.below 0 (by decide)
  have hlow' := ho 0
  have hd : Digits 65536 (Function.update r 15 (r 15 % 65536)) := by
    intro j
    by_cases hj : j = 15
    · subst hj
      rw [Function.update_self]
      omega
    · rw [Function.update_of_ne hj]
      exact h.below j (by omega)
  have hnonneg : 0 ≤ Gf.num (Function.update r 15 (r 15 % 65536)) := hd.value_nonneg (by decide)
  have hlt : Gf.num (Function.update r 15 (r 15 % 65536)) < 65536 ^ 16 := hd.value_lt
  have hsum : Gf.num (Function.update r 15 (r 15 % 65536)) =
      r.num + (r 15 % 65536 - r 15) * 65536 ^ 15 := value_update r 15 _
  rw [h.num] at hsum
  have hq : o.num / 2 ^ 256 = r 15 / 65536 := by omega
  have hlast := carLimb_last (o := r) (by omega) (by omega)
  refine ⟨Function.update (Function.update r 15 (r 15 % 65536)) 0 (r 0 + 38 * (r 15 / 65536)),
    ?_, ?_, ?_, ?_⟩
  · rw [car25519, List.finRange_succ_last, List.foldlM_append, List.foldlM_map, hr,
      Function.update_comm (by decide)]
    simpa using hlast
  · have hup := value_update (β := 65536) (Function.update r 15 (r 15 % 65536)) 0
      (r 0 + 38 * (r 15 / 65536))
    rw [Function.update_of_ne (by decide : (0 : Fin 16) ≠ 15)] at hup
    simp only [Fin.val_zero, pow_zero, mul_one] at hup
    rw [hq]
    exact hup.trans (by simp only [Gf.num] at hsum hlt hnonneg ⊢; omega)
  · rw [hq, Function.update_self]
    omega
  · intro i
    dsimp only
    rw [Function.update_of_ne (Fin.succ_ne_zero i)]
    exact hd i.succ

theorem Wrapped.modEq {o r : Gf} (h : Wrapped o r) : r.num ≡ o.num [ZMOD prime] := by
  refine (Int.modEq_iff_dvd).mpr ⟨2 * (o.num / 2 ^ 256), ?_⟩
  have := h.num
  simp only [prime]
  omega

theorem Wrapped.within {o r : Gf} (h : Wrapped o r) {q : ℤ}
    (hlo : -q ≤ o.num / 2 ^ 256) (hhi : o.num / 2 ^ 256 ≤ q) : Within (65535 + 38 * q) r := by
  intro i
  have hfirst := h.first
  refine Fin.cases ?_ (fun i => ?_) i
  · omega
  · have hi : 0 ≤ r i.succ ∧ r i.succ < 65536 := h.rest i
    omega

/-- The field elements that products and constants are: the points' coordinates. -/
abbrev Reduced (a : Gf) : Prop := Within 65573 a

theorem num_bound {M : ℤ} {a : Gf} (h : Within M a) (hM : 0 ≤ M) :
    -(M * 2 ^ 241) ≤ a.num ∧ a.num ≤ M * 2 ^ 241 := by
  have hsum : ∑ i : Fin 16, (65536 : ℤ) ^ (i : ℕ) ≤ 2 ^ 241 := by
    simp [Fin.sum_univ_succ]
  have hval : -(M * ∑ i : Fin 16, 65536 ^ (i : ℕ)) ≤ a.num ∧
      a.num ≤ M * ∑ i : Fin 16, 65536 ^ (i : ℕ) := h.value (by decide)
  have hle := mul_le_mul_of_nonneg_left hsum hM
  omega

/-- What is left to wrap after a first pass is at most one. -/
theorem car25519_pair {o : Gf} (ho : Within (2 ^ 56) o) :
    ∃ r r', car25519 o = some r ∧ car25519 r = some r' ∧ Wrapped o r ∧ Wrapped r r' ∧
      -1 ≤ r.num / 2 ^ 256 ∧ r.num / 2 ^ 256 ≤ 1 := by
  obtain ⟨r, hr, h⟩ := car25519_spec ho
  have hnum := num_bound ho (by decide)
  have hsmall : Within (65535 + 38 * 2 ^ 42) r := h.within (by omega) (by omega)
  obtain ⟨r', hr', h'⟩ := car25519_spec (hsmall.mono (by decide))
  have hnum' := h.num
  exact ⟨r, r', hr, hr', h, h', by omega, by omega⟩

/-- Two passes reduce whatever a product leaves. -/
theorem car25519_twice {o : Gf} (ho : Within (2 ^ 56) o) :
    ∃ r, (car25519 o >>= car25519) = some r ∧ Reduced r ∧ r.num ≡ o.num [ZMOD prime] := by
  obtain ⟨r, r', hr, hr', h, h', hlo, hhi⟩ := car25519_pair ho
  refine ⟨r', ?_, h'.within (q := 1) (by omega) hhi, h'.modEq.trans h.modEq⟩
  rw [hr]
  exact hr'

/-! ## Sums and differences -/

theorem a_gf_eq {M : ℤ} {a b : Gf} (h : Within M fun i => a i + b i) (hM : M < 2 ^ 63) :
    a_gf a b = some fun i => a i + b i :=
  Loop.foldlM_finRange_update (fun i => i64_within (h i) hM) _

theorem z_gf_eq {M : ℤ} {a b : Gf} (h : Within M fun i => a i - b i) (hM : M < 2 ^ 63) :
    z_gf a b = some fun i => a i - b i :=
  Loop.foldlM_finRange_update (fun i => i64_within (h i) hM) _

/-! ## Products -/

/-- The row of `m_gf` for limb `i`, over the limbs `l` of the other factor: each pass adds at most
`P` to a limb of the product. -/
theorem mulRow_spec {P : ℤ} {a b : Gf} (hab : ∀ i j, -P ≤ a i * b j ∧ a i * b j ≤ P) (i : Fin 16)
    (l : List (Fin 16)) {T : ℤ} (hP : 0 ≤ P) (hT : T + P * l.length ≤ 2 ^ 62) {t : Fin 31 → ℤ}
    (ht : Within T t) :
    ∃ r, l.foldlM (mulLimb a b i) t = some r ∧ Within (T + P * l.length) r ∧
      value 65536 r = value 65536 t +
        a i * 65536 ^ (i : ℕ) * (l.map fun j => b j * 65536 ^ (j : ℕ)).sum := by
  induction l generalizing t T with
  | nil => exact ⟨t, rfl, by simpa using ht, by simp⟩
  | cons j l ih =>
    have hprod := hab i j
    have hlimb := ht ⟨i + j, by omega⟩
    have hlen : 0 ≤ P * l.length := mul_nonneg hP (Int.natCast_nonneg _)
    rw [List.length_cons, Nat.cast_succ, mul_add, mul_one] at hT
    have hpass : mulLimb a b i t j =
        some (Function.update t ⟨i + j, by omega⟩ (t ⟨i + j, by omega⟩ + a i * b j)) := by
      rw [mulLimb, i64_of_le (by omega) (by omega)]
      simp only [Option.bind_eq_bind, Option.bind_some]
      rw [i64_of_le (by omega) (by omega)]
      rfl
    have hnext : Within (T + P)
        (Function.update t ⟨i + j, by omega⟩ (t ⟨i + j, by omega⟩ + a i * b j)) := by
      intro k
      by_cases hk : k = ⟨i + j, by omega⟩
      · subst hk
        rw [Function.update_self]
        omega
      · rw [Function.update_of_ne hk]
        have := ht k
        omega
    obtain ⟨r, hr, hwithin, hval⟩ := ih (by omega) hnext
    refine ⟨r, ?_, ?_, ?_⟩
    · rw [List.foldlM_cons, hpass]
      exact hr
    · refine hwithin.mono (le_of_eq ?_)
      push_cast [List.length_cons]
      ring
    · rw [hval, value_update, List.map_cons, List.sum_cons]
      simp only [pow_add]
      ring

theorem mulRows_spec {P : ℤ} {a b : Gf} (hab : ∀ i j, -P ≤ a i * b j ∧ a i * b j ≤ P)
    (l : List (Fin 16)) {T : ℤ} (hP : 0 ≤ P) (hT : T + P * 16 * l.length ≤ 2 ^ 62)
    {t : Fin 31 → ℤ} (ht : Within T t) :
    ∃ r, l.foldlM (fun t i => (List.finRange 16).foldlM (mulLimb a b i) t) t = some r ∧
      Within (T + P * 16 * l.length) r ∧
        value 65536 r = value 65536 t + (l.map fun i => a i * 65536 ^ (i : ℕ)).sum * b.num := by
  induction l generalizing t T with
  | nil => exact ⟨t, rfl, by simpa using ht, by simp⟩
  | cons i l ih =>
    have hlen : 0 ≤ P * 16 * l.length := mul_nonneg (by omega) (Int.natCast_nonneg _)
    rw [List.length_cons, Nat.cast_succ, mul_add, mul_one] at hT
    obtain ⟨r, hr, hwithin, hval⟩ := mulRow_spec hab i (List.finRange 16) hP
      (by rw [List.length_finRange]; push_cast; omega) ht
    rw [List.length_finRange] at hwithin
    obtain ⟨r', hr', hwithin', hval'⟩ := ih (T := T + P * 16) (by omega) hwithin
    have hb : ((List.finRange 16).map fun j => b j * 65536 ^ (j : ℕ)).sum = b.num :=
      (Fin.sum_univ_def _).symm
    refine ⟨r', ?_, ?_, ?_⟩
    · rw [List.foldlM_cons, hr]
      exact hr'
    · refine hwithin'.mono (le_of_eq ?_)
      push_cast [List.length_cons]
      ring
    · rw [hval', hval, hb, List.map_cons, List.sum_cons]
      ring

/-- The product folded: limb `i + 16` counts 38 times in limb `i`. -/
def folded (t : Fin 31 → ℤ) (k : ℕ) (j : Fin 31) : ℤ :=
  if h : (j : ℕ) < k ∧ (j : ℕ) < 15 then t j + 38 * t ⟨j + 16, by omega⟩ else t j

theorem foldLimb_spec {t : Fin 31 → ℤ} (ht : Within (2 ^ 50) t) :
    (List.finRange 15).foldlM foldLimb t = some (folded t 15) := by
  have hstep : ∀ (k : Fin 15) (r : Fin 31 → ℤ), r = folded t k →
      ∃ r', foldLimb r k = some r' ∧ r' = folded t (k + 1) := by
    rintro k _ rfl
    have hlow := ht ⟨k, by omega⟩
    have hhigh := ht ⟨k + 16, by omega⟩
    have h1 : folded t k ⟨k + 16, by omega⟩ = t ⟨k + 16, by omega⟩ := by simp [folded]
    have h2 : folded t k ⟨k, by omega⟩ = t ⟨k, by omega⟩ := by simp [folded]
    refine ⟨_, ?_, rfl⟩
    rw [foldLimb, h1, h2, i64_of_le (by omega) (by omega)]
    simp only [Option.bind_eq_bind, Option.bind_some]
    rw [i64_of_le (by omega) (by omega)]
    simp only [Option.bind_some, Option.pure_def, Option.some.injEq]
    ext j
    by_cases hj : j = ⟨k, by omega⟩
    · subst hj
      simp [folded]
    · have hne : (j : ℕ) ≠ k := fun he => hj (Fin.ext he)
      rw [Function.update_of_ne hj]
      simp only [folded, show (j : ℕ) < k + 1 ↔ (j : ℕ) < k by omega]
  obtain ⟨r, hr, rfl⟩ := Loop.foldlM_finRange_induction (s := t) (P := fun k r => r = folded t k)
    (by ext j; simp [folded]) hstep
  exact hr

/-- Folding drops a multiple of `2 ^ 256 - 38`. -/
theorem folded_num (t : Fin 31 → ℤ) :
    Gf.num (fun i => folded t 15 ⟨i, by omega⟩) ≡ value 65536 t [ZMOD prime] := by
  refine Int.modEq_iff_dvd.mpr ⟨2 * value 65536 fun i : Fin 15 => t ⟨i + 16, by omega⟩, ?_⟩
  simp only [Gf.num, value, folded, Fin.sum_univ_succ, prime]
  simp
  ring

theorem folded_within {T : ℤ} {t : Fin 31 → ℤ} (ht : Within T t) (k : ℕ) :
    Within (39 * T) (folded t k) := by
  intro j
  have hj := ht j
  by_cases h : (j : ℕ) < k ∧ (j : ℕ) < 15
  · have hhigh := ht ⟨j + 16, by omega⟩
    rw [folded, dif_pos h]
    omega
  · rw [folded, dif_neg h]
    omega

/-- A product of limbs of up to 20 bits is exact and reduced. -/
theorem m_gf_spec {a b : Gf} (ha : Within (2 ^ 20) a) (hb : Within (2 ^ 20) b) :
    ∃ o, m_gf a b = some o ∧ Reduced o ∧ o.num ≡ a.num * b.num [ZMOD prime] := by
  obtain ⟨t, ht, hwithin, hval⟩ := mulRows_spec (fun i j => ha.mul hb i j) (List.finRange 16)
    (T := 0) (t := fun _ => 0) (by decide) (by decide) fun _ => by simp
  have hnum : value 65536 t = a.num * b.num := by
    rw [hval, ← Fin.sum_univ_def]
    simp [value]
  have hT : Within (2 ^ 50) t := hwithin.mono (by decide)
  have hfold := folded_within hT 15
  obtain ⟨o, ho, hred, hmod⟩ := car25519_twice (o := fun i => folded t 15 ⟨i, by omega⟩)
    fun i => (hfold.mono (by decide)) ⟨i, by omega⟩
  refine ⟨o, ?_, hred, ?_⟩
  · rw [m_gf, ht]
    simp only [Option.bind_eq_bind, Option.bind_some]
    rw [foldLimb_spec hT]
    exact ho
  · rw [← hnum]
    exact hmod.trans (folded_num t)

end BloblyEmb.Bcrypto
