import Mathlib.Data.ZMod.Basic
import Mathlib.NumberTheory.LucasPrimality

/-!
# Primes by the powers of an element

A number is prime when an element modulo it has an order one below it. The powers are computed by
squaring.
-/
namespace BloblyEmb.Primality

/-- `a ^ e` modulo `m`, for an exponent of at most `bits` bits. -/
def powMod (m : ℕ) : ℕ → ℕ → ℕ → ℕ
  | 0, _, _ => 1 % m
  | bits + 1, a, e =>
    if e % 2 = 1 then powMod m bits (a * a % m) (e / 2) * a % m
    else powMod m bits (a * a % m) (e / 2)

theorem powMod_cast (m : ℕ) {bits e : ℕ} (he : e < 2 ^ bits) (a : ℕ) :
    (powMod m bits a e : ZMod m) = (a : ZMod m) ^ e := by
  induction bits generalizing a e with
  | zero =>
    obtain rfl : e = 0 := by simpa using he
    simp [powMod]
  | succ bits ih =>
    have hsquare : (powMod m bits (a * a % m) (e / 2) : ZMod m) = (a : ZMod m) ^ (2 * (e / 2)) := by
      rw [ih (by omega), ZMod.natCast_mod, Nat.cast_mul, ← pow_two, ← pow_mul]
    rw [powMod]
    split
    case isTrue hodd =>
      rw [ZMod.natCast_mod, Nat.cast_mul, hsquare, ← pow_succ]
      congr 1
      omega
    case isFalse heven =>
      rw [hsquare]
      congr 1
      omega

/-- A prime by an element that generates, and the primes whose product is one less. -/
theorem prime_of_factors {p : ℕ} (bits a : ℕ) (factors : List ℕ) (hbits : p ≤ 2 ^ bits) (hp : 1 < p)
    (hprime : ∀ q ∈ factors, q.Prime) (hprod : factors.prod = p - 1)
    (hone : powMod p bits a (p - 1) = 1)
    (hall : ∀ q ∈ factors, powMod p bits a ((p - 1) / q) % p ≠ 1) : p.Prime := by
  have hlt : ∀ q, (p - 1) / q < 2 ^ bits := fun q =>
    Nat.lt_of_le_of_lt (Nat.div_le_self _ _) (by omega)
  refine lucas_primality p a ?_ fun q hq hdvd hpow => ?_
  · have hlt' : p - 1 < 2 ^ bits := by omega
    rw [← powMod_cast p hlt', hone, Nat.cast_one]
  · rw [← hprod, hq.prime.dvd_prod_iff] at hdvd
    obtain ⟨r, hr, hqr⟩ := hdvd
    obtain rfl := (Nat.prime_dvd_prime_iff_eq hq (hprime r hr)).mp hqr
    rw [← powMod_cast p (hlt q)] at hpow
    have hmod : powMod p bits a ((p - 1) / q) % p = 1 % p :=
      (ZMod.natCast_eq_natCast_iff' _ _ _).mp (by rw [hpow, Nat.cast_one])
    rw [Nat.mod_eq_of_lt hp] at hmod
    exact hall q hr hmod

end BloblyEmb.Primality
