import Mathlib.Algebra.Order.Ring.Nat
import BloblyEmb.Bcrypto.Field

/-!
# The encoding of a field element

`pack25519` carries three times, which leaves digits, subtracts the prime at most twice, each time
choosing by a mask, and writes two bytes for each limb.
-/
namespace BloblyEmb.Bcrypto

open Limbs

/-- The bitwise operations on an `i64`. -/
def and64 (x y : ℤ) : ℤ := (BitVec.ofInt 64 x &&& BitVec.ofInt 64 y).toInt

def xor64 (x y : ℤ) : ℤ := (BitVec.ofInt 64 x ^^^ BitVec.ofInt 64 y).toInt

def not64 (x : ℤ) : ℤ := (~~~BitVec.ofInt 64 x).toInt

/-- Swaps `p` and `q` when `b` is 1 and leaves them when it is 0, by a mask. -/
def sel25519 (p q : Gf) (b : ℤ) : Option (Gf × Gf) := do
  let x ← i64 (b - 1)
  let c := not64 x
  let t : Gf := fun i => and64 c (xor64 (p i) (q i))
  pure (fun i => xor64 (p i) (t i), fun i => xor64 (q i) (t i))

/-- The borrow that the limb `x` leaves: its bit 16. -/
def borrow (x : ℤ) : ℤ := x / 65536 % 2

/-- The pass of the subtraction in `pack25519` at limb `i + 1`. -/
def subLimb (t m : Gf) (i : Fin 14) : Option Gf := do
  let x ← i64 (t ⟨i + 1, by omega⟩ - 0xffff)
  let y ← i64 (x - borrow (m ⟨i, by omega⟩))
  let m := Function.update m ⟨i + 1, by omega⟩ y
  pure (Function.update m ⟨i, by omega⟩ (m ⟨i, by omega⟩ % 65536))

/-- One round of `pack25519`: `m` becomes `t` less the prime, and `t` takes it when there is no
borrow. -/
def packRound (t m : Gf) : Option (Gf × Gf) := do
  let x ← i64 (t 0 - 0xffed)
  let m := Function.update m 0 x
  let m ← (List.finRange 14).foldlM (subLimb t) m
  let x ← i64 (t 15 - 0x7fff)
  let y ← i64 (x - borrow (m 14))
  let m := Function.update m 15 y
  let b := borrow (m 15)
  let m := Function.update m 14 (m 14 % 65536)
  let b ← i64 (1 - b)
  sel25519 t m b

def pack25519 (n : Gf) : Option (Fin 32 → UInt8) := do
  let t := set25519 n
  let t ← car25519 t
  let t ← car25519 t
  let t ← car25519 t
  let (t, m) ← packRound t fun _ => 0
  let (t, _) ← packRound t m
  pure fun k =>
    if (k : ℕ) % 2 = 0 then UInt8.ofInt (t ⟨k / 2, by omega⟩ % 256)
    else UInt8.ofInt (t ⟨k / 2, by omega⟩ / 256)

/-- The number that 32 bytes encode, lowest byte first. -/
def encoded (o : Fin 32 → UInt8) : ℤ := value 256 fun k => ((o k).toNat : ℤ)

/-! ## Selection -/

theorem xor64_zero {x : ℤ} (h : -2 ^ 63 ≤ x) (h' : x < 2 ^ 63) : xor64 x 0 = x := by
  simp only [xor64, BitVec.ofInt_ofNat, BitVec.xor_zero, BitVec.toInt_ofInt]
  exact Int.bmod_eq_of_le (by omega) (by omega)

theorem and64_zero (x : ℤ) : and64 0 x = 0 := by
  simp [and64]

theorem and64_neg_one (x : ℤ) : and64 (-1) x = (BitVec.ofInt 64 x).toInt := by
  have h : BitVec.ofInt 64 (-1) = BitVec.allOnes 64 := by decide
  rw [and64, h, BitVec.allOnes_and]

theorem xor64_mask {x y : ℤ} (h : -2 ^ 63 ≤ y) (h' : y < 2 ^ 63) :
    xor64 x (and64 (-1) (xor64 x y)) = y := by
  rw [and64_neg_one, xor64, xor64, BitVec.ofInt_toInt, BitVec.ofInt_toInt, ← BitVec.xor_assoc,
    BitVec.xor_self, BitVec.zero_xor, BitVec.toInt_ofInt]
  exact Int.bmod_eq_of_le (by omega) (by omega)

theorem xor64_comm (x y : ℤ) : xor64 x y = xor64 y x := by
  rw [xor64, xor64, BitVec.xor_comm]

theorem sel25519_zero {p q : Gf} (hp : Within (2 ^ 62) p) (hq : Within (2 ^ 62) q) :
    sel25519 p q 0 = some (p, q) := by
  have hc : not64 (0 - 1) = 0 := by decide
  rw [sel25519, i64_of_le (by decide) (by decide)]
  simp only [Option.bind_eq_bind, Option.bind_some, hc, and64_zero, Option.pure_def,
    Option.some.injEq, Prod.mk.injEq]
  constructor
  · ext i
    have := hp i
    exact xor64_zero (by omega) (by omega)
  · ext i
    have := hq i
    exact xor64_zero (by omega) (by omega)

theorem sel25519_one {p q : Gf} (hp : Within (2 ^ 62) p) (hq : Within (2 ^ 62) q) :
    sel25519 p q 1 = some (q, p) := by
  have hc : not64 (1 - 1) = -1 := by decide
  rw [sel25519, i64_of_le (by decide) (by decide)]
  simp only [Option.bind_eq_bind, Option.bind_some, hc, Option.pure_def, Option.some.injEq,
    Prod.mk.injEq]
  constructor
  · ext i
    have := hq i
    exact xor64_mask (by omega) (by omega)
  · ext i
    have := hp i
    rw [xor64_comm (p i)]
    exact xor64_mask (by omega) (by omega)

/-! ## Digits after three passes -/

/-- A third pass leaves digits only: what wraps round meets a limb 0 that takes it. -/
theorem car25519_thrice {o : Gf} (ho : Within (2 ^ 56) o) :
    ∃ r r' r'', car25519 o = some r ∧ car25519 r = some r' ∧ car25519 r' = some r'' ∧
      Digits 65536 r'' ∧ r''.num ≡ o.num [ZMOD prime] := by
  obtain ⟨r, r', hr, hr', h, h', hlo, hhi⟩ := car25519_pair ho
  have hsmall : Within (65535 + 38 * 1) r' := h'.within (by omega) hhi
  obtain ⟨r'', hr'', h''⟩ := car25519_spec (hsmall.mono (by decide))
  refine ⟨r, r', r'', hr, hr', hr'', ?_, h''.modEq.trans (h'.modEq.trans h.modEq)⟩
  have hnum := h'.num
  have hnum' := h''.num
  have hfirst := h''.first
  have hsplit : r''.num = r'' 0 + 65536 * value 65536 fun i : Fin 15 => r'' i.succ := value_succ r''
  have htail := h''.rest.value_nonneg (by decide)
  have htail' := h''.rest.value_lt
  intro i
  refine Fin.cases ?_ (fun i => h''.rest i) i
  omega

/-! ## The conditional subtraction -/

/-- The limbs of the prime. -/
def primeLimbs : Gf := fun i => if i = 0 then 0xffed else if i = 15 then 0x7fff else 0xffff

theorem primeLimbs_num : primeLimbs.num = prime := by
  decide +kernel

theorem primeLimbs_middle (k : Fin 14) : primeLimbs ⟨k + 1, by omega⟩ = 0xffff := by
  revert k
  decide

theorem borrow_eq {x : ℤ} (h : -65536 ≤ x) (h' : x < 65536) : borrow x = -(x / 65536) := by
  unfold borrow
  omega

/-- The limbs `m` up to `k` and the limbs `x` above. -/
def front (k : ℕ) (m x : Gf) : Gf := fun j => if (j : ℕ) ≤ k then m j else x j

/-- The state of the subtraction when limb `k` is in: the limbs below are digits and the borrow is
still in limb `k`. -/
structure Borrowed (x : Gf) (k : ℕ) (m : Gf) : Prop where
  num : (front k m x).num = x.num
  below : ∀ j : Fin 16, (j : ℕ) < k → 0 ≤ m j ∧ m j < 65536
  here : ∀ j : Fin 16, (j : ℕ) = k → -65536 ≤ m j ∧ m j < 65536

/-- Limb `j = i + 1` comes in and limb `i` gives up its borrow. -/
theorem Borrowed.step {x m : Gf} {i j : Fin 16} (h : Borrowed x i m) (hj : (j : ℕ) = i + 1)
    (hx : -65535 ≤ x j ∧ x j ≤ 65535) :
    Borrowed x j (Function.update (Function.update m j (x j - borrow (m i))) i (m i % 65536)) := by
  have hi := h.here i rfl
  have hne : i ≠ j := by
    intro he
    subst he
    omega
  rw [borrow_eq hi.1 hi.2]
  refine ⟨?_, ?_, ?_⟩
  · have hcarry := value_carry (β := 65536) (front i m x) hj (m i / 65536)
    have hfi : front i m x i = m i := by simp [front]
    have hfj : front i m x j = x j := by simp [front, hj]
    rw [hfi, hfj] at hcarry
    refine Eq.trans (congrArg Gf.num (funext fun k => ?_)) (hcarry.trans h.num)
    by_cases hki : k = i
    · subst hki
      simp only [front, hj, Function.update_self]
      rw [if_pos (by omega)]
      omega
    · by_cases hkj : k = j
      · subst hkj
        simp only [front, le_refl, if_true, Function.update_of_ne hki, Function.update_self]
        omega
      · have hvi : (k : ℕ) ≠ i := fun he => hki (Fin.ext he)
        have hvj : (k : ℕ) ≠ j := fun he => hkj (Fin.ext he)
        simp only [front, Function.update_of_ne hki, Function.update_of_ne hkj,
          show (k : ℕ) ≤ j ↔ (k : ℕ) ≤ i by omega]
  · intro k hk
    by_cases hki : k = i
    · subst hki
      rw [Function.update_self]
      omega
    · have hvi : (k : ℕ) ≠ i := fun he => hki (Fin.ext he)
      rw [Function.update_of_ne hki, Function.update_of_ne (by rintro rfl; omega)]
      exact h.below k (by omega)
  · intro k hk
    obtain rfl : k = j := Fin.ext hk
    rw [Function.update_of_ne hne.symm, Function.update_self]
    omega

theorem Borrowed.full {x m : Gf} (h : Borrowed x 15 m) : m.num = x.num := by
  rw [← h.num]
  exact congrArg Gf.num (funext fun j => (if_pos (by omega : (j : ℕ) ≤ 15)).symm)

/-- With every limb in, the sign of limb 15 is the sign of the number. -/
theorem Borrowed.sign {x m : Gf} (h : Borrowed x 15 m) : m 15 < 0 ↔ x.num < 0 := by
  have hnum := h.full
  have hlow : Digits 65536 fun i : Fin 15 => m i.castSucc := fun i => h.below _ i.isLt
  have hsplit : m.num = value 65536 (fun i : Fin 15 => m i.castSucc) + m 15 * 65536 ^ 15 :=
    value_castSucc m
  have hnonneg := hlow.value_nonneg (by decide)
  have hlt := hlow.value_lt
  rw [← hnum]
  omega

theorem Borrowed.digits {x m : Gf} (h : Borrowed x 15 m) (hx : 0 ≤ x.num) : Digits 65536 m := by
  have h15 := h.here 15 rfl
  have hsign := h.sign
  intro j
  by_cases hj : j = 15
  · subst hj
    omega
  · exact h.below j (by omega)

/-- One round takes the prime off once, if it can. -/
theorem packRound_spec {t : Gf} (ht : Digits 65536 t) (m : Gf) :
    ∃ t' m', packRound t m = some (t', m') ∧ Digits 65536 t' ∧
      t'.num = if prime ≤ t.num then t.num - prime else t.num := by
  let x : Gf := fun i => t i - primeLimbs i
  have hxnum : x.num = t.num - prime := by
    rw [← primeLimbs_num]
    exact value_sub t primeLimbs
  have hx : ∀ j : Fin 16, -65535 ≤ x j ∧ x j ≤ 65535 := by
    intro j
    have hp : ∀ j, 0 ≤ primeLimbs j ∧ primeLimbs j ≤ 65535 := by decide
    have := ht j
    have := hp j
    dsimp only [x]
    omega
  have h0 : Borrowed x 0 (Function.update m 0 (x 0)) := by
    refine ⟨congrArg Gf.num (funext fun j => ?_), fun j hj => absurd hj (by omega), fun j hj => ?_⟩
    · by_cases hj : j = 0
      · subst hj
        simp [front]
      · have hv : (j : ℕ) ≠ 0 := fun he => hj (Fin.ext he)
        simp [front, hv]
    · obtain rfl : j = 0 := Fin.ext hj
      have := hx 0
      rw [Function.update_self]
      omega
  have hstep : ∀ (k : Fin 14) (r : Gf), Borrowed x k r →
      ∃ r', subLimb t r k = some r' ∧ Borrowed x (k + 1) r' := by
    intro k r hr
    have hk : x ⟨k + 1, by omega⟩ = t ⟨k + 1, by omega⟩ - 0xffff := by
      simp only [x, primeLimbs_middle k]
    have hbound := hx ⟨k + 1, by omega⟩
    have hhere := hr.here ⟨k, by omega⟩ rfl
    have hborrow := borrow_eq hhere.1 hhere.2
    refine ⟨_, ?_, hr.step (i := ⟨k, by omega⟩) (j := ⟨k + 1, by omega⟩) rfl hbound⟩
    rw [subLimb, ← hk, i64_of_le (by omega) (by omega)]
    simp only [Option.bind_eq_bind, Option.bind_some]
    rw [i64_of_le (by omega) (by omega)]
    simp
  obtain ⟨r, hr, h14⟩ := Loop.foldlM_finRange_induction h0 hstep
  have h15 := h14.step (i := 14) (j := 15) rfl (hx 15)
  have hb := h15.here 15 rfl
  have hsign := h15.sign
  have hwithin : Within (2 ^ 62) t := fun i => by
    have := ht i
    omega
  have hwithin' : Within (2 ^ 62)
      (Function.update (Function.update r 15 (x 15 - borrow (r 14))) 14 (r 14 % 65536)) := by
    intro j
    by_cases hj : (j : ℕ) < 15
    · have := h15.below j hj
      omega
    · have := h15.here j (by omega)
      omega
  have hround : packRound t m = sel25519 t
      (Function.update (Function.update r 15 (x 15 - borrow (r 14))) 14 (r 14 % 65536))
        (1 - borrow (x 15 - borrow (r 14))) := by
    have hx0 : t 0 - 0xffed = x 0 := rfl
    have hx15 : t 15 - 0x7fff = x 15 := rfl
    have hbound := hx 15
    have hhere := h14.here 14 rfl
    have hborrow := borrow_eq hhere.1 hhere.2
    have hbit : borrow (x 15 - borrow (r 14)) = 0 ∨ borrow (x 15 - borrow (r 14)) = 1 :=
      Int.emod_two_eq_zero_or_one _
    rw [packRound, hx0, hx15, i64_within (hx 0) (by decide)]
    simp only [Option.bind_eq_bind, Option.bind_some]
    rw [hr]
    simp only [Option.bind_some]
    rw [i64_within hbound (by decide)]
    simp only [Option.bind_some]
    rw [i64_of_le (by omega) (by omega)]
    simp only [Option.bind_some, Function.update_self]
    rw [i64_of_le (by omega) (by omega)]
    rfl
  have hs15 : Function.update (Function.update r 15 (x 15 - borrow (r 14))) 14 (r 14 % 65536) 15 =
      x 15 - borrow (r 14) := by
    rw [Function.update_of_ne (by decide), Function.update_self]
  rw [hs15] at hb hsign
  by_cases hlt : t.num < prime
  · have hbit : borrow (x 15 - borrow (r 14)) = 1 := by
      have := borrow_eq hb.1 hb.2
      omega
    refine ⟨_, _, by rw [hround, hbit]; exact sel25519_zero hwithin hwithin', ht, ?_⟩
    rw [if_neg (by omega)]
  · have hbit : borrow (x 15 - borrow (r 14)) = 0 := by
      have := borrow_eq hb.1 hb.2
      omega
    refine ⟨_, _, by rw [hround, hbit]; exact sel25519_one hwithin hwithin',
      h15.digits (by omega), ?_⟩
    rw [if_pos (by omega), h15.full, hxnum]

/-! ## The bytes -/

theorem toNat_ofInt {x : ℤ} (h : 0 ≤ x) (h' : x < 256) : ((UInt8.ofInt x).toNat : ℤ) = x := by
  rw [UInt8.ofInt, UInt8.toNat_ofNat']
  omega

/-- Two bytes for each limb encode the number of the limbs. -/
theorem encoded_limbs {t : Gf} (ht : Digits 65536 t) :
    encoded (fun k => if (k : ℕ) % 2 = 0 then UInt8.ofInt (t ⟨k / 2, by omega⟩ % 256)
      else UInt8.ofInt (t ⟨k / 2, by omega⟩ / 256)) = t.num := by
  have hhalves := value_halves (β := 256) (n := 16)
    (fun i => t (Fin.ofNat 16 i) % 256) fun i => t (Fin.ofNat 16 i) / 256
  refine Eq.trans (congrArg (value 256) (funext fun k => ?_)) (hhalves.trans
    (congrArg (value 65536) (funext fun i => ?_)))
  · have hlimb := ht ⟨k / 2, by omega⟩
    have hidx : Fin.ofNat 16 (k / 2) = ⟨k / 2, by omega⟩ := Fin.ext (Nat.mod_eq_of_lt (by omega))
    dsimp only
    rw [hidx]
    by_cases hk : (k : ℕ) % 2 = 0
    · rw [if_pos hk, if_pos hk]
      exact toNat_ofInt (by omega) (by omega)
    · rw [if_neg hk, if_neg hk]
      exact toNat_ofInt (by omega) (by omega)
  · have hidx : Fin.ofNat 16 i = i := Fin.ext (Nat.mod_eq_of_lt i.isLt)
    simp only [hidx]
    omega

/-- `pack25519` encodes the number modulo the prime. -/
theorem pack25519_spec {n : Gf} (hn : Within (2 ^ 56) n) :
    ∃ o, pack25519 n = some o ∧ encoded o = n.num % prime := by
  obtain ⟨r, r', t, hr, hr', ht, hdigits, hmod⟩ := car25519_thrice hn
  obtain ⟨t', m', h1, hdigits', hnum'⟩ := packRound_spec hdigits fun _ => 0
  obtain ⟨t'', m'', h2, hdigits'', hnum''⟩ := packRound_spec hdigits' m'
  refine ⟨_, ?_, (encoded_limbs hdigits'').trans ?_⟩
  · have hset : set25519 n = n := rfl
    simp only [pack25519, hset, hr, hr', ht, h1, h2, Option.bind_eq_bind, Option.bind_some]
    rfl
  · rw [← hmod]
    have hnonneg : 0 ≤ t.num := hdigits.value_nonneg (by decide)
    have hlt : t.num < 65536 ^ 16 := hdigits.value_lt
    simp only [prime] at hnum' hnum'' ⊢
    rw [hnum'', hnum']
    omega

/-- No other bytes encode the same number. -/
theorem encoded_injective {o o' : Fin 32 → UInt8} (h : encoded o = encoded o') : o = o' := by
  have hdigits : ∀ o : Fin 32 → UInt8, Digits 256 fun k => ((o k).toNat : ℤ) := by
    intro o k
    have := (o k).toNat_lt
    dsimp only
    omega
  funext k
  have hk := congrFun ((hdigits o).eq_of_value_eq (hdigits o') h) k
  exact UInt8.toNat_inj.mp (Int.natCast_inj.mp hk)

end BloblyEmb.Bcrypto
