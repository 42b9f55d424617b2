import Mathlib.Algebra.Order.Ring.Nat
import Mathlib.Data.Fin.VecNotation
import Mathlib.Data.ZMod.Basic
import BloblyEmb.Bcrypto.Pack

/-!
# Points on the curve

The point formulas of the signature check are chains of field operations. Each of them refines the
same chain over the integers modulo the prime, and no chain leaves the bounds in which the limb
arithmetic is exact: every coordinate is a product again, and no operand of a product is the sum
of more than four.
-/
namespace BloblyEmb.Bcrypto

open Limbs

/-- A point in extended coordinates. -/
structure Pt (α : Type) where
  x : α
  y : α
  z : α
  t : α

/-- The integers modulo the prime. -/
abbrev Fp := ZMod (2 ^ 255 - 19)

instance neZero_prime : NeZero (2 ^ 255 - 19) := ⟨by decide⟩

def gf0 : Gf := fun _ => 0

def gf1 : Gf := fun i => if i = 0 then 1 else 0

def gfd : Gf := ![0x78a3, 0x1359, 0x4dca, 0x75eb, 0xd8ab, 0x4141, 0x0a4d, 0x0070, 0xe898, 0x7779,
  0x4079, 0x8cc7, 0xfe73, 0x2b6f, 0x6cee, 0x5203]

def gfd2 : Gf := ![0xf159, 0x26b2, 0x9b94, 0xebd6, 0xb156, 0x8283, 0x149a, 0x00e0, 0xd130, 0xeef3,
  0x80f2, 0x198e, 0xfce7, 0x56df, 0xd9dc, 0x2406]

def gfx : Gf := ![0xd51a, 0x8f25, 0x2d60, 0xc956, 0xa7b2, 0x9525, 0xc760, 0x692c, 0xdc5c, 0xfdd6,
  0xe231, 0xc0a4, 0x53fe, 0xcd6e, 0x36d3, 0x2169]

def gfy : Gf := ![0x6658, 0x6666, 0x6666, 0x6666, 0x6666, 0x6666, 0x6666, 0x6666, 0x6666, 0x6666,
  0x6666, 0x6666, 0x6666, 0x6666, 0x6666, 0x6666]

def gfi : Gf := ![0xa0b0, 0x4a0e, 0x1b27, 0xc4ee, 0xe478, 0xad2f, 0x1806, 0x2f43, 0xd7a7, 0x3dfb,
  0x0099, 0x2b4d, 0xdf0b, 0x4fc1, 0x2480, 0x2b83]

def unpack25519 (n : Fin 32 → UInt8) : Option Gf := do
  let o ← (List.finRange 16).foldlM (fun (o : Gf) (i : Fin 16) => do
    let x ← i64 ((n ⟨2 * i, by omega⟩).toNat + (n ⟨2 * i + 1, by omega⟩).toNat * 256)
    pure (Function.update o i x)) fun _ => 0
  pure (Function.update o 15 (o 15 % 32768))

/-- The loop of `inv25519` and `pow2523`: a square at each index, and a factor `i` where `skip` does
not hold. -/
def powLoop (skip : ℕ → Bool) (i : Gf) (l : List ℕ) : Option Gf :=
  l.foldlM (fun c a => do
    let c ← s_gf c
    if skip a then pure c else m_gf c i) i

def inv25519 (i : Gf) : Option Gf :=
  powLoop (fun a => a = 2 || a = 4) i (List.range 254).reverse

def pow2523 (i : Gf) : Option Gf := powLoop (fun a => a = 1) i (List.range 251).reverse

/-- 0 when the bytes are equal, -1 when any differ. -/
def crypto_verify_32 (x y : Fin 32 → UInt8) : ℤ :=
  let d := (List.finRange 32).foldl (fun d i => d ||| (x i ^^^ y i).toUInt32) (0 : UInt32)
  (((1 : UInt64) &&& ((d.toUInt64 - 1) >>> 8)).toNat : ℤ) - 1

def neq25519 (a b : Gf) : Option ℤ := do
  let c ← pack25519 a
  let d ← pack25519 b
  pure (crypto_verify_32 c d)

def par25519 (a : Gf) : Option UInt8 := do
  let d ← pack25519 a
  pure (d 0 &&& 1)

def add_pt (p q : Pt Gf) : Option (Pt Gf) := do
  let a ← z_gf p.y p.x
  let t ← z_gf q.y q.x
  let a ← m_gf a t
  let b ← a_gf p.x p.y
  let t ← a_gf q.x q.y
  let b ← m_gf b t
  let c ← m_gf p.t q.t
  let c ← m_gf c gfd2
  let d ← m_gf p.z q.z
  let d ← a_gf d d
  let e ← z_gf b a
  let f ← z_gf d c
  let g ← a_gf d c
  let h ← a_gf b a
  let x ← m_gf e f
  let y ← m_gf h g
  let z ← m_gf g f
  let t ← m_gf e h
  pure ⟨x, y, z, t⟩

def cswap_pt (p q : Pt Gf) (b : ℤ) : Option (Pt Gf × Pt Gf) := do
  let (px, qx) ← sel25519 p.x q.x b
  let (py, qy) ← sel25519 p.y q.y b
  let (pz, qz) ← sel25519 p.z q.z b
  let (pt, qt) ← sel25519 p.t q.t b
  pure (⟨px, py, pz, pt⟩, ⟨qx, qy, qz, qt⟩)

/-- Bit `i` of the scalar `s`. -/
def scalarBit (s : Fin 32 → UInt8) (i : Fin 256) : ℕ :=
  (s ⟨i / 8, by omega⟩).toNat / 2 ^ (i % 8 : ℕ) % 2

/-- The pass of `scalarmult` at bit `i`. -/
def scalarPass (s : Fin 32 → UInt8) (pq : Pt Gf × Pt Gf) (i : Fin 256) : Option (Pt Gf × Pt Gf) := do
  let b : ℤ := scalarBit s i
  let (p, q) ← cswap_pt pq.1 pq.2 b
  let q ← add_pt q p
  let p ← add_pt p p
  cswap_pt p q b

/-- The points `p` and `q` that `scalarmult` leaves. -/
def scalarmult (q : Pt Gf) (s : Fin 32 → UInt8) : Option (Pt Gf × Pt Gf) :=
  (List.finRange 256).reverse.foldlM (scalarPass s) (⟨gf0, gf1, gf1, gf0⟩, q)

def scalarbase (s : Fin 32 → UInt8) : Option (Pt Gf) := do
  let t ← m_gf gfx gfy
  let (p, _) ← scalarmult ⟨gfx, gfy, gf1, t⟩ s
  pure p

/-- The start of `unpackneg`: for the ordinate `y` the two sides of the curve equation and a
candidate for the root of their quotient. -/
def rootCandidate (y : Gf) : Option (Gf × Gf × Gf) := do
  let num ← s_gf y
  let den ← m_gf num gfd
  let num ← z_gf num gf1
  let den ← a_gf gf1 den
  let den2 ← s_gf den
  let den4 ← s_gf den2
  let den6 ← m_gf den4 den2
  let t ← m_gf den6 num
  let t ← m_gf t den
  let t ← pow2523 t
  let t ← m_gf t num
  let t ← m_gf t den
  let t ← m_gf t den
  let x ← m_gf t den
  pure (num, den, x)

/-- 0 when `x` is a root. -/
def rootCheck (num den x : Gf) : Option ℤ := do
  let chk ← s_gf x
  let chk ← m_gf chk den
  neq25519 chk num

/-- The candidate, multiplied by the root of -1 when it is not a root as it is. -/
def correctRoot (num den x : Gf) : Option Gf := do
  let n ← rootCheck num den x
  if n ≠ 0 then m_gf x gfi else pure x

/-- `x` negated when its sign is the sign bit `b`. -/
def negateSign (x : Gf) (b : UInt8) : Option Gf := do
  let s ← par25519 x
  if s = b then z_gf gf0 x else pure x

/-- The point that `unpackneg` leaves, none when it returns -1. -/
def unpackneg (pk : Fin 32 → UInt8) : Option (Option (Pt Gf)) := do
  let y ← unpack25519 pk
  let (num, den, x) ← rootCandidate y
  let x ← correctRoot num den x
  let n ← rootCheck num den x
  if n ≠ 0 then
    pure none
  else
    let x ← negateSign x (pk 31 >>> 7)
    let t ← m_gf x y
    pure (some ⟨x, y, gf1, t⟩)

def pack_point (p : Pt Gf) : Option (Fin 32 → UInt8) := do
  let zi ← inv25519 p.z
  let tx ← m_gf p.x zi
  let ty ← m_gf p.y zi
  let r ← pack25519 ty
  let b ← par25519 tx
  pure (Function.update r 31 (r 31 ^^^ b <<< 7))

/-- The point arithmetic of a check: the key, the reduced hash `h` and the scalar `s` of the
signature. The outcome is none when the key is not on the curve. -/
def checkPoint (pk h s : Fin 32 → UInt8) : Option (Option (Fin 32 → UInt8)) := do
  match ← unpackneg pk with
  | none => pure none
  | some q =>
    let (p, _) ← scalarmult q h
    let sb ← scalarbase s
    let p ← add_pt p sb
    let r ← pack_point p
    pure (some r)

/-! ## Elements as numbers modulo the prime -/

/-- The number modulo the prime that a field element represents. -/
def Gf.toFp (a : Gf) : Fp := (a.num : Fp)

/-- `a` represents `v`, as a sum or difference of at most `k` reduced elements. -/
def Rep (k : ℕ) (v : Fp) (a : Gf) : Prop := Within (k * 65573) a ∧ a.toFp = v

theorem toFp_eq_of_modEq {x y : ℤ} (h : x ≡ y [ZMOD prime]) : (x : Fp) = (y : Fp) := by
  rw [ZMod.intCast_eq_intCast_iff]
  exact h

variable {k l : ℕ} {v w : Fp} {a b : Gf}

theorem Rep.within (h : Rep k v a) (hk : k ≤ 4) : Within (2 ^ 20) a := h.1.mono (by omega)

theorem rep_reduced (h : Reduced a) : Rep 1 a.toFp a := ⟨by simpa using h, rfl⟩

theorem rep_m_gf (ha : Rep k v a) (hb : Rep l w b) (hk : k ≤ 4) (hl : l ≤ 4) :
    ∃ o, m_gf a b = some o ∧ Rep 1 (v * w) o := by
  obtain ⟨o, ho, hred, hmod⟩ := m_gf_spec (ha.within hk) (hb.within hl)
  refine ⟨o, ho, by simpa using hred, ?_⟩
  rw [Gf.toFp, toFp_eq_of_modEq hmod, Int.cast_mul, ← ha.2, ← hb.2]
  rfl

theorem rep_s_gf (ha : Rep k v a) (hk : k ≤ 4) : ∃ o, s_gf a = some o ∧ Rep 1 (v * v) o :=
  rep_m_gf ha ha hk hk

theorem a_gf_spec {a b : Gf} (ha : Within (k * 65573) a) (hb : Within (l * 65573) b)
    (hkl : k + l ≤ 4) :
    ∃ o, a_gf a b = some o ∧ Within ((k + l : ℕ) * 65573) o ∧ o.num = a.num + b.num := by
  have hsum := ha.add hb
  exact ⟨_, a_gf_eq hsum (by omega), hsum.mono (by push_cast; omega), value_add a b⟩

theorem z_gf_spec {a b : Gf} (ha : Within (k * 65573) a) (hb : Within (l * 65573) b)
    (hkl : k + l ≤ 4) :
    ∃ o, z_gf a b = some o ∧ Within ((k + l : ℕ) * 65573) o ∧ o.num = a.num - b.num := by
  have hsub := ha.sub hb
  exact ⟨_, z_gf_eq hsub (by omega), hsub.mono (by push_cast; omega), value_sub a b⟩

theorem rep_a_gf (ha : Rep k v a) (hb : Rep l w b) (hkl : k + l ≤ 4) :
    ∃ o, a_gf a b = some o ∧ Rep (k + l) (v + w) o := by
  obtain ⟨o, ho, hwithin, hnum⟩ := a_gf_spec ha.1 hb.1 hkl
  refine ⟨o, ho, hwithin, ?_⟩
  rw [Gf.toFp, hnum, Int.cast_add, ← ha.2, ← hb.2]
  rfl

theorem rep_z_gf (ha : Rep k v a) (hb : Rep l w b) (hkl : k + l ≤ 4) :
    ∃ o, z_gf a b = some o ∧ Rep (k + l) (v - w) o := by
  obtain ⟨o, ho, hwithin, hnum⟩ := z_gf_spec ha.1 hb.1 hkl
  refine ⟨o, ho, hwithin, ?_⟩
  rw [Gf.toFp, hnum, Int.cast_sub, ← ha.2, ← hb.2]
  rfl

theorem reduced_gfd : Reduced gfd := by decide

theorem reduced_gfd2 : Reduced gfd2 := by decide

theorem reduced_gfx : Reduced gfx := by decide

theorem reduced_gfy : Reduced gfy := by decide

theorem reduced_gfi : Reduced gfi := by decide

/-! ## Encodings -/

theorem rep_pack (ha : Rep k v a) (hk : k ≤ 4) :
    ∃ o, pack25519 a = some o ∧ encoded o = a.num % prime :=
  pack25519_spec (ha.1.mono (by omega))

/-- The last line of `vn`, on every byte. -/
theorem verify_byte (e : UInt8) :
    (((1 : UInt64) &&& ((e.toUInt32.toUInt64 - 1) >>> 8)).toNat : ℤ) - 1 = 0 ↔ e = 0 := by
  have hall : ∀ k < 256, (((1 : UInt64) &&&
      (((UInt8.ofNat k).toUInt32.toUInt64 - 1) >>> 8)).toNat : ℤ) - 1 = 0 ↔ UInt8.ofNat k = 0 := by
    decide +kernel
  have h := hall e.toNat e.toNat_lt
  rwa [UInt8.ofNat_toNat] at h

theorem crypto_verify_32_eq_zero {x y : Fin 32 → UInt8} : crypto_verify_32 x y = 0 ↔ x = y := by
  have hfold : ∀ (l : List (Fin 32)) (e : UInt8),
      l.foldl (fun d i => d ||| (x i ^^^ y i).toUInt32) e.toUInt32 =
        (l.foldl (fun d i => d ||| (x i ^^^ y i)) e).toUInt32 := by
    intro l
    induction l with
    | nil => exact fun e => rfl
    | cons i l ih =>
      intro e
      rw [List.foldl_cons, ← UInt8.toUInt32_or, ih]
      rfl
  have hzero : ∀ (l : List (Fin 32)) (e : UInt8),
      l.foldl (fun d i => d ||| (x i ^^^ y i)) e = 0 ↔ e = 0 ∧ ∀ i ∈ l, x i = y i := by
    intro l
    induction l with
    | nil => simp
    | cons i l ih =>
      intro e
      rw [List.foldl_cons, ih, UInt8.or_eq_zero_iff, UInt8.xor_eq_zero_iff]
      simp [and_assoc]
  unfold crypto_verify_32
  simp only
  rw [show (0 : UInt32) = (0 : UInt8).toUInt32 from rfl, hfold, verify_byte, hzero]
  simp [funext_iff]

theorem toFp_eq_iff {a b : Gf} : a.toFp = b.toFp ↔ a.num % prime = b.num % prime :=
  ZMod.intCast_eq_intCast_iff' _ _ _

theorem rep_neq (ha : Rep k v a) (hb : Rep l w b) (hk : k ≤ 4) (hl : l ≤ 4) :
    ∃ n, neq25519 a b = some n ∧ (n = 0 ↔ v = w) := by
  obtain ⟨c, hc, hce⟩ := rep_pack ha hk
  obtain ⟨d, hd, hde⟩ := rep_pack hb hl
  refine ⟨crypto_verify_32 c d, by simp [neq25519, hc, hd], ?_⟩
  rw [crypto_verify_32_eq_zero, ← ha.2, ← hb.2, toFp_eq_iff, ← hce, ← hde]
  exact ⟨fun h => congrArg encoded h, encoded_injective⟩

theorem val_toFp (a : Gf) : (a.toFp.val : ℤ) = a.num % prime := by
  rw [Gf.toFp]
  exact ZMod.val_intCast a.num

/-- The first byte of an encoding has its parity. -/
theorem encoded_parity (o : Fin 32 → UInt8) : ((o 0 &&& 1).toNat : ℤ) = encoded o % 2 := by
  have hlow : (o 0 &&& 1).toNat = (o 0).toNat % 2 := by
    rw [UInt8.toNat_and]
    exact Nat.and_one_is_mod _
  have hsplit := value_succ (β := 256) fun k : Fin 32 => ((o k).toNat : ℤ)
  rw [hlow, encoded, hsplit]
  omega

theorem rep_par (ha : Rep k v a) (hk : k ≤ 4) :
    ∃ n, par25519 a = some n ∧ n.toNat = v.val % 2 := by
  obtain ⟨c, hc, hce⟩ := rep_pack ha hk
  refine ⟨c 0 &&& 1, by simp [par25519, hc], ?_⟩
  have hpar := encoded_parity c
  rw [hce, ← val_toFp, ha.2] at hpar
  omega

/-- The low 255 bits of the bytes. -/
theorem unpack25519_spec (n : Fin 32 → UInt8) :
    ∃ o, unpack25519 n = some o ∧ Reduced o ∧ o.num = encoded n % 2 ^ 255 := by
  let o : Gf := fun i => (n ⟨2 * i, by omega⟩).toNat + (n ⟨2 * i + 1, by omega⟩).toNat * 256
  have ho : ∀ i, 0 ≤ o i ∧ o i < 65536 := by
    intro i
    have hlow := (n ⟨2 * i, by omega⟩).toNat_lt
    have hhigh := (n ⟨2 * i + 1, by omega⟩).toNat_lt
    dsimp only [o]
    omega
  refine ⟨Function.update o 15 (o 15 % 32768), ?_, ?_, ?_⟩
  · rw [unpack25519, Loop.foldlM_finRange_update (g := o)]
    · rfl
    · intro i
      have hi := ho i
      exact i64_of_le (x := o i) (by omega) (by omega)
  · intro i
    have := ho i
    by_cases hi : i = 15
    · subst hi
      rw [Function.update_self]
      omega
    · rw [Function.update_of_ne hi]
      omega
  · have hall : o.num = encoded n := by
      have hhalves := value_halves (β := 256) (n := 16)
        (fun i => ((n (Fin.ofNat 32 (2 * i))).toNat : ℤ))
        fun i => ((n (Fin.ofNat 32 (2 * i + 1))).toNat : ℤ)
      refine (Eq.trans (congrArg (value 256) (funext fun k => ?_)) (hhalves.trans
        (congrArg (value 65536) (funext fun i => ?_)))).symm
      · by_cases hk : (k : ℕ) % 2 = 0
        · have hidx : Fin.ofNat 32 (2 * ((k : ℕ) / 2)) = k := by
            refine Fin.ext ?_
            simp only [Fin.ofNat]
            omega
          rw [if_pos hk, hidx]
        · have hidx : Fin.ofNat 32 (2 * ((k : ℕ) / 2) + 1) = k := by
            refine Fin.ext ?_
            simp only [Fin.ofNat]
            omega
          rw [if_neg hk, hidx]
      · have hlow : Fin.ofNat 32 (2 * (i : ℕ)) = ⟨2 * i, by omega⟩ := by
          refine Fin.ext ?_
          simp only [Fin.ofNat]
          omega
        have hhigh : Fin.ofNat 32 (2 * (i : ℕ) + 1) = ⟨2 * i + 1, by omega⟩ := by
          refine Fin.ext ?_
          simp only [Fin.ofNat]
          omega
        rw [hlow, hhigh]
        exact congrArg _ (mul_comm 256 _)
    have hupdate : Gf.num (Function.update o 15 (o 15 % 32768)) =
        o.num + (o 15 % 32768 - o 15) * 65536 ^ 15 := value_update o 15 _
    have hsplit : Gf.num (Function.update o 15 (o 15 % 32768)) =
        value 65536 (fun i : Fin 15 => o i.castSucc) + o 15 % 32768 * 65536 ^ 15 := by
      have hlow : (fun i : Fin 15 => Function.update o 15 (o 15 % 32768) i.castSucc) =
          fun i => o i.castSucc :=
        funext fun i => Function.update_of_ne (Fin.castSucc_lt_last i).ne _ _
      have htop : Function.update o 15 (o 15 % 32768) (Fin.last 15) = o 15 % 32768 :=
        Function.update_self _ _ _
      rw [Gf.num, value_castSucc, hlow, htop]
    have hdigits : Digits 65536 fun i : Fin 15 => o i.castSucc := fun i => ho _
    have hnonneg := hdigits.value_nonneg (by decide)
    have hlt := hdigits.value_lt
    rw [← hall]
    generalize value 65536 (fun i : Fin 15 => o i.castSucc) = low at *
    generalize Gf.num (Function.update o 15 (o 15 % 32768)) = N at *
    generalize Gf.num o = M at *
    omega

theorem unpack25519_reduced (n : Fin 32 → UInt8) : ∃ o, unpack25519 n = some o ∧ Reduced o := by
  obtain ⟨o, ho, hred, -⟩ := unpack25519_spec n
  exact ⟨o, ho, hred⟩

/-! ## Powers -/

/-- The exponent that the loop of `inv25519` and `pow2523` reaches. -/
def powExp (skip : ℕ → Bool) (l : List ℕ) (e : ℕ) : ℕ :=
  l.foldl (fun e a => if skip a then e + e else e + e + 1) e

theorem rep_powLoop (skip : ℕ → Bool) {i : Gf} (hi : Rep 1 v i) (l : List ℕ) :
    ∃ o, powLoop skip i l = some o ∧ Rep 1 (v ^ powExp skip l 1) o := by
  have hrun : ∀ (e : ℕ) (c : Gf), Rep 1 (v ^ e) c →
      ∃ o, l.foldlM (fun c a => do
        let c ← s_gf c
        if skip a then pure c else m_gf c i) c = some o ∧ Rep 1 (v ^ powExp skip l e) o := by
    induction l with
    | nil => exact fun e c hc => ⟨c, rfl, hc⟩
    | cons a l ih =>
      intro e c hc
      obtain ⟨c', hc', hsq⟩ := rep_s_gf hc (by decide)
      by_cases ha : skip a
      · obtain ⟨o, ho, hrep⟩ := ih (e + e) c' (by rwa [pow_add])
        exact ⟨o, by simpa [hc', ha] using ho, by simpa [powExp, ha] using hrep⟩
      · obtain ⟨c'', hc'', hmul⟩ := rep_m_gf hsq hi (by decide) (by decide)
        obtain ⟨o, ho, hrep⟩ := ih (e + e + 1) c'' (by rwa [pow_succ, pow_add])
        exact ⟨o, by simpa [hc', ha, hc''] using ho, by simpa [powExp, ha] using hrep⟩
  exact hrun 1 i (by rwa [pow_one])

/-- The inverse is taken as a power. -/
theorem rep_inv25519 {i : Gf} (hi : Rep 1 v i) :
    ∃ o, inv25519 i = some o ∧ Rep 1 (v ^ (2 ^ 255 - 21)) o := by
  have hexp : powExp (fun a => a = 2 || a = 4) (List.range 254).reverse 1 = 2 ^ 255 - 21 := by
    decide +kernel
  rw [← hexp]
  exact rep_powLoop _ hi _

theorem rep_pow2523 {i : Gf} (hi : Rep 1 v i) :
    ∃ o, pow2523 i = some o ∧ Rep 1 (v ^ (2 ^ 252 - 3)) o := by
  have hexp : powExp (fun a => a = 1) (List.range 251).reverse 1 = 2 ^ 252 - 3 := by
    decide +kernel
  rw [← hexp]
  exact rep_powLoop _ hi _

/-! ## The point formulas -/

/-- The sum of two points over a ring, `d2` being twice the constant of the curve. -/
def Pt.add {R : Type} [CommRing R] (d2 : R) (p q : Pt R) : Pt R :=
  let a := (p.y - p.x) * (q.y - q.x)
  let b := (p.x + p.y) * (q.x + q.y)
  let c := p.t * q.t * d2
  let d := p.z * q.z + p.z * q.z
  ⟨(b - a) * (d - c), (b + a) * (d + c), (d + c) * (d - c), (b - a) * (b + a)⟩

/-- The point `p` represents `v`, every coordinate reduced. -/
structure RepPt (v : Pt Fp) (p : Pt Gf) : Prop where
  x : Rep 1 v.x p.x
  y : Rep 1 v.y p.y
  z : Rep 1 v.z p.z
  t : Rep 1 v.t p.t

theorem rep_add_pt {v w : Pt Fp} {p q : Pt Gf} (hp : RepPt v p) (hq : RepPt w q) :
    ∃ r, add_pt p q = some r ∧ RepPt (Pt.add gfd2.toFp v w) r := by
  obtain ⟨a₀, ha₀, ra₀⟩ := rep_z_gf hp.y hp.x (by decide)
  obtain ⟨t₀, ht₀, rt₀⟩ := rep_z_gf hq.y hq.x (by decide)
  obtain ⟨a, ha, ra⟩ := rep_m_gf ra₀ rt₀ (by decide) (by decide)
  obtain ⟨b₀, hb₀, rb₀⟩ := rep_a_gf hp.x hp.y (by decide)
  obtain ⟨t₁, ht₁, rt₁⟩ := rep_a_gf hq.x hq.y (by decide)
  obtain ⟨b, hb, rb⟩ := rep_m_gf rb₀ rt₁ (by decide) (by decide)
  obtain ⟨c₀, hc₀, rc₀⟩ := rep_m_gf hp.t hq.t (by decide) (by decide)
  obtain ⟨c, hc, rc⟩ := rep_m_gf rc₀ (rep_reduced reduced_gfd2) (by decide) (by decide)
  obtain ⟨d₀, hd₀, rd₀⟩ := rep_m_gf hp.z hq.z (by decide) (by decide)
  obtain ⟨d, hd, rd⟩ := rep_a_gf rd₀ rd₀ (by decide)
  obtain ⟨e, he, re⟩ := rep_z_gf rb ra (by decide)
  obtain ⟨f, hf, rf⟩ := rep_z_gf rd rc (by decide)
  obtain ⟨g, hg, rg⟩ := rep_a_gf rd rc (by decide)
  obtain ⟨h, hh, rh⟩ := rep_a_gf rb ra (by decide)
  obtain ⟨x, hx, rx⟩ := rep_m_gf re rf (by decide) (by decide)
  obtain ⟨y, hy, ry⟩ := rep_m_gf rh rg (by decide) (by decide)
  obtain ⟨z, hz, rz⟩ := rep_m_gf rg rf (by decide) (by decide)
  obtain ⟨t, ht, rt⟩ := rep_m_gf re rh (by decide) (by decide)
  refine ⟨⟨x, y, z, t⟩, ?_, rx, ry, rz, rt⟩
  simp only [add_pt, ha₀, ht₀, ha, hb₀, ht₁, hb, hc₀, hc, hd₀, hd, he, hf, hg, hh, hx, hy, hz, ht,
    Option.bind_eq_bind, Option.bind_some, Option.pure_def]

theorem rep_cswap_pt {v w : Pt Fp} {p q : Pt Gf} (hp : RepPt v p) (hq : RepPt w q) {b : ℕ}
    (hb : b < 2) : ∃ r, cswap_pt p q b = some r ∧
      RepPt (if b = 1 then w else v) r.1 ∧ RepPt (if b = 1 then v else w) r.2 := by
  have hwithin : ∀ {u : Fp} {g : Gf}, Rep 1 u g → Within (2 ^ 62) g := fun h => h.1.mono (by decide)
  obtain rfl | rfl : b = 0 ∨ b = 1 := by omega
  · refine ⟨(p, q), ?_, hp, hq⟩
    simp only [cswap_pt, Nat.cast_zero, sel25519_zero (hwithin hp.x) (hwithin hq.x),
      sel25519_zero (hwithin hp.y) (hwithin hq.y), sel25519_zero (hwithin hp.z) (hwithin hq.z),
      sel25519_zero (hwithin hp.t) (hwithin hq.t)]
    rfl
  · refine ⟨(q, p), ?_, hq, hp⟩
    simp only [cswap_pt, Nat.cast_one, sel25519_one (hwithin hp.x) (hwithin hq.x),
      sel25519_one (hwithin hp.y) (hwithin hq.y), sel25519_one (hwithin hp.z) (hwithin hq.z),
      sel25519_one (hwithin hp.t) (hwithin hq.t)]
    rfl

/-! ## The ladder -/

/-- A pass of the ladder over a ring: swap when the bit is set, add, double, swap back. -/
def Pt.ladderPass {R : Type} [CommRing R] (d2 : R) (s : Fin 32 → UInt8) (vw : Pt R × Pt R)
    (i : Fin 256) : Pt R × Pt R :=
  let v := if scalarBit s i = 1 then vw.2 else vw.1
  let w := if scalarBit s i = 1 then vw.1 else vw.2
  let w := Pt.add d2 w v
  let v := Pt.add d2 v v
  (if scalarBit s i = 1 then w else v, if scalarBit s i = 1 then v else w)

/-- The multiple of `q` by the scalar `s`, high bit first. -/
def Pt.ladder {R : Type} [CommRing R] (d2 : R) (q : Pt R) (s : Fin 32 → UInt8) : Pt R × Pt R :=
  (List.finRange 256).reverse.foldl (Pt.ladderPass d2 s) (⟨0, 1, 1, 0⟩, q)

theorem scalarBit_lt (s : Fin 32 → UInt8) (i : Fin 256) : scalarBit s i < 2 :=
  Nat.mod_lt _ (by decide)

theorem rep_scalarPass (s : Fin 32 → UInt8) (i : Fin 256) {vw : Pt Fp × Pt Fp}
    {pq : Pt Gf × Pt Gf} (hp : RepPt vw.1 pq.1) (hq : RepPt vw.2 pq.2) :
    ∃ r, scalarPass s pq i = some r ∧ RepPt (Pt.ladderPass gfd2.toFp s vw i).1 r.1 ∧
      RepPt (Pt.ladderPass gfd2.toFp s vw i).2 r.2 := by
  obtain ⟨⟨p, q⟩, hswap, hp, hq⟩ := rep_cswap_pt hp hq (scalarBit_lt s i)
  obtain ⟨q', hq', rq⟩ := rep_add_pt hq hp
  obtain ⟨p', hp', rp⟩ := rep_add_pt hp hp
  obtain ⟨r, hback, hr⟩ := rep_cswap_pt rp rq (scalarBit_lt s i)
  refine ⟨r, ?_, hr⟩
  simp only [scalarPass, hswap, hq', hp', hback, Option.bind_eq_bind, Option.bind_some]

theorem rep_gf0 : Rep 0 0 gf0 := by
  refine ⟨by decide, ?_⟩
  simp [Gf.toFp, Gf.num, value, gf0]

theorem rep_gf1 : Rep 1 1 gf1 := by
  refine ⟨by decide, ?_⟩
  simp [Gf.toFp, Gf.num, value, gf1]

theorem Rep.mono (h : Rep k v a) (hkl : k ≤ l) : Rep l v a := ⟨h.1.mono (by omega), h.2⟩

theorem rep_scalarmult {v : Pt Fp} {q : Pt Gf} (hq : RepPt v q) (s : Fin 32 → UInt8) :
    ∃ r, scalarmult q s = some r ∧ RepPt (Pt.ladder gfd2.toFp v s).1 r.1 ∧
      RepPt (Pt.ladder gfd2.toFp v s).2 r.2 := by
  have hrun : ∀ (l : List (Fin 256)) (vw : Pt Fp × Pt Fp) (pq : Pt Gf × Pt Gf), RepPt vw.1 pq.1 →
      RepPt vw.2 pq.2 → ∃ r, l.foldlM (scalarPass s) pq = some r ∧
        RepPt (l.foldl (Pt.ladderPass gfd2.toFp s) vw).1 r.1 ∧
          RepPt (l.foldl (Pt.ladderPass gfd2.toFp s) vw).2 r.2 := by
    intro l
    induction l with
    | nil => exact fun vw pq hp hq => ⟨pq, rfl, hp, hq⟩
    | cons i l ih =>
      intro vw pq hp hq
      obtain ⟨r, hr, hp', hq'⟩ := rep_scalarPass s i hp hq
      obtain ⟨r', hr', hfin⟩ := ih _ r hp' hq'
      refine ⟨r', ?_, hfin⟩
      rw [List.foldlM_cons, hr]
      exact hr'
  have hzero : Rep 1 0 gf0 := rep_gf0.mono (by decide)
  exact hrun _ (⟨0, 1, 1, 0⟩, v) _ ⟨hzero, rep_gf1, rep_gf1, hzero⟩ hq

theorem rep_scalarbase (s : Fin 32 → UInt8) : ∃ v r, scalarbase s = some r ∧ RepPt v r := by
  obtain ⟨t, ht, rt⟩ := rep_m_gf (rep_reduced reduced_gfx) (rep_reduced reduced_gfy) (by decide)
    (by decide)
  have hq : RepPt ⟨gfx.toFp, gfy.toFp, 1, gfx.toFp * gfy.toFp⟩ ⟨gfx, gfy, gf1, t⟩ :=
    ⟨rep_reduced reduced_gfx, rep_reduced reduced_gfy, rep_gf1, rt⟩
  obtain ⟨r, hr, hp, -⟩ := rep_scalarmult hq s
  exact ⟨_, r.1, by simp [scalarbase, ht, hr], hp⟩

/-! ## Decoding and encoding a point -/

/-- The candidate for a root of `u / w`. -/
def rootOf (u w : Fp) : Fp := (w * w * (w * w) * (w * w) * u * w) ^ (2 ^ 252 - 3) * u * w * w * w

theorem rep_rootCandidate {y : Gf} (ry : Rep 1 v y) : ∃ num den x,
    rootCandidate y = some (num, den, x) ∧ Rep 2 (v * v - 1) num ∧
      Rep 2 (1 + v * v * gfd.toFp) den ∧
        Rep 1 (rootOf (v * v - 1) (1 + v * v * gfd.toFp)) x := by
  obtain ⟨num₀, hnum₀, rnum₀⟩ := rep_s_gf ry (by decide)
  obtain ⟨den₀, hden₀, rden₀⟩ := rep_m_gf rnum₀ (rep_reduced reduced_gfd) (by decide) (by decide)
  obtain ⟨num, hnum, rnum⟩ := rep_z_gf rnum₀ rep_gf1 (by decide)
  obtain ⟨den, hden, rden⟩ := rep_a_gf rep_gf1 rden₀ (by decide)
  obtain ⟨den2, hden2, rden2⟩ := rep_s_gf rden (by decide)
  obtain ⟨den4, hden4, rden4⟩ := rep_s_gf rden2 (by decide)
  obtain ⟨den6, hden6, rden6⟩ := rep_m_gf rden4 rden2 (by decide) (by decide)
  obtain ⟨t₁, ht₁, rt₁⟩ := rep_m_gf rden6 rnum (by decide) (by decide)
  obtain ⟨t₂, ht₂, rt₂⟩ := rep_m_gf rt₁ rden (by decide) (by decide)
  obtain ⟨t₃, ht₃, rt₃⟩ := rep_pow2523 rt₂
  obtain ⟨t₄, ht₄, rt₄⟩ := rep_m_gf rt₃ rnum (by decide) (by decide)
  obtain ⟨t₅, ht₅, rt₅⟩ := rep_m_gf rt₄ rden (by decide) (by decide)
  obtain ⟨t₆, ht₆, rt₆⟩ := rep_m_gf rt₅ rden (by decide) (by decide)
  obtain ⟨x, hx, rx⟩ := rep_m_gf rt₆ rden (by decide) (by decide)
  refine ⟨num, den, x, ?_, rnum, rden, rx⟩
  simp only [rootCandidate, hnum₀, hden₀, hnum, hden, hden2, hden4, hden6, ht₁, ht₂, ht₃, ht₄, ht₅,
    ht₆, hx, Option.bind_eq_bind, Option.bind_some, Option.pure_def]

section Root

variable {num den x : Gf} {vn vd vx : Fp}

theorem rep_rootCheck (rnum : Rep 2 vn num) (rden : Rep 2 vd den) (rx : Rep 1 vx x) :
    ∃ n, rootCheck num den x = some n ∧ (n = 0 ↔ vx * vx * vd = vn) := by
  obtain ⟨chk₀, hchk₀, rchk₀⟩ := rep_s_gf rx (by decide)
  obtain ⟨chk, hchk, rchk⟩ := rep_m_gf rchk₀ rden (by decide) (by decide)
  obtain ⟨n, hn, hzero⟩ := rep_neq rchk rnum (by decide) (by decide)
  exact ⟨n, by simp [rootCheck, hchk₀, hchk, hn], hzero⟩

theorem rep_correctRoot (rnum : Rep 2 vn num) (rden : Rep 2 vd den) (rx : Rep 1 vx x) :
    ∃ x', correctRoot num den x = some x' ∧
      Rep 1 (if vx * vx * vd = vn then vx else vx * gfi.toFp) x' := by
  obtain ⟨n, hn, hzero⟩ := rep_rootCheck rnum rden rx
  by_cases h0 : n = 0
  · rw [if_pos (hzero.mp h0)]
    exact ⟨x, by simp [correctRoot, hn, h0], rx⟩
  · rw [if_neg fun h => h0 (hzero.mpr h)]
    obtain ⟨x', hx', rx'⟩ := rep_m_gf rx (rep_reduced reduced_gfi) (by decide) (by decide)
    exact ⟨x', by simp [correctRoot, hn, h0, hx'], rx'⟩

theorem rep_negateSign (rx : Rep 1 vx x) (b : UInt8) :
    ∃ x', negateSign x b = some x' ∧ Rep 1 (if vx.val % 2 = b.toNat then 0 - vx else vx) x' := by
  obtain ⟨s, hs, hpar⟩ := rep_par rx (by decide)
  have hiff : s = b ↔ vx.val % 2 = b.toNat := by rw [← hpar, UInt8.toNat_inj]
  by_cases hsign : s = b
  · rw [if_pos (hiff.mp hsign)]
    obtain ⟨x', hx', rx'⟩ := rep_z_gf rep_gf0 rx (by decide)
    exact ⟨x', by simp [negateSign, hs, hsign, hx'], rx'⟩
  · rw [if_neg fun h => hsign (hiff.mpr h)]
    exact ⟨x, by simp [negateSign, hs, hsign], rx⟩

end Root

/-- The ordinate that the bytes of a key give. -/
def yOf (pk : Fin 32 → UInt8) : Fp := ((encoded pk % 2 ^ 255 : ℤ) : Fp)

/-- The root that the decoding of a key tries, before its sign. -/
def triedRoot (y : Fp) : Fp :=
  let u := y * y - 1
  let w := 1 + y * y * gfd.toFp
  if rootOf u w * rootOf u w * w = u then rootOf u w else rootOf u w * gfi.toFp

/-- The abscissa that is left when the sign is set. -/
def signedRoot (pk : Fin 32 → UInt8) : Fp :=
  if (triedRoot (yOf pk)).val % 2 = (pk 31 >>> 7).toNat then 0 - triedRoot (yOf pk)
  else triedRoot (yOf pk)

theorem unpackneg_spec (pk : Fin 32 → UInt8) : ∃ r, unpackneg pk = some r ∧
    (r = none ↔ triedRoot (yOf pk) * triedRoot (yOf pk) * (1 + yOf pk * yOf pk * gfd.toFp) ≠
      yOf pk * yOf pk - 1) ∧
    ∀ p, r = some p → RepPt ⟨signedRoot pk, yOf pk, 1, signedRoot pk * yOf pk⟩ p := by
  obtain ⟨y, hy, hred, hnum⟩ := unpack25519_spec pk
  have ry : Rep 1 (yOf pk) y := by
    have h := rep_reduced hred
    rwa [Gf.toFp, hnum] at h
  obtain ⟨num, den, x₀, hroot, rnum, rden, rx₀⟩ := rep_rootCandidate ry
  obtain ⟨x, hx, rx⟩ := rep_correctRoot rnum rden rx₀
  change Rep 1 (triedRoot (yOf pk)) x at rx
  obtain ⟨n, hn, hzero⟩ := rep_rootCheck rnum rden rx
  by_cases h0 : n = 0
  · obtain ⟨x', hx', rx'⟩ := rep_negateSign rx (pk 31 >>> 7)
    change Rep 1 (signedRoot pk) x' at rx'
    obtain ⟨t, ht, rt⟩ := rep_m_gf rx' ry (by decide) (by decide)
    refine ⟨some ⟨x', y, gf1, t⟩, ?_, ?_, ?_⟩
    · simp [unpackneg, hy, hroot, hx, hn, h0, hx', ht]
    · exact ⟨fun h => (Option.some_ne_none _ h).elim, fun h => absurd (hzero.mp h0) h⟩
    · intro p hp
      have hpt : RepPt ⟨signedRoot pk, yOf pk, 1, signedRoot pk * yOf pk⟩ ⟨x', y, gf1, t⟩ := by
        constructor <;> dsimp only
        · exact rx'
        · exact ry
        · exact rep_gf1
        · exact rt
      exact Option.some.inj hp ▸ hpt
  · refine ⟨none, by simp [unpackneg, hy, hroot, hx, hn, h0], ?_, ?_⟩
    · exact ⟨fun _ h => h0 (hzero.mpr h), fun _ => rfl⟩
    · intro p hp
      cases hp

theorem rep_unpackneg (pk : Fin 32 → UInt8) :
    ∃ r, unpackneg pk = some r ∧ ∀ p, r = some p → ∃ v, RepPt v p := by
  obtain ⟨r, hr, -, hrep⟩ := unpackneg_spec pk
  exact ⟨r, hr, fun p hp => ⟨_, hrep p hp⟩⟩

/-- A byte with its top bit free takes a bit there. -/
theorem xor_top {r b : UInt8} (hr : r.toNat < 128) (hb : b.toNat < 2) :
    (r ^^^ b <<< 7).toNat = r.toNat + 128 * b.toNat := by
  have hall : ∀ i < 128, ∀ j < 2, (UInt8.ofNat i ^^^ UInt8.ofNat j <<< 7).toNat = i + 128 * j := by
    decide +kernel
  have h := hall r.toNat hr b.toNat hb
  rwa [UInt8.ofNat_toNat, UInt8.ofNat_toNat] at h

/-- The ordinate, and the parity of the abscissa in the top bit. -/
theorem pack_point_spec {v : Pt Fp} {p : Pt Gf} (hp : RepPt v p) : ∃ r, pack_point p = some r ∧
    encoded r = (v.y * v.z ^ (2 ^ 255 - 21)).val + 2 ^ 255 * ((v.x * v.z ^ (2 ^ 255 - 21)).val % 2) := by
  obtain ⟨zi, hzi, rzi⟩ := rep_inv25519 hp.z
  obtain ⟨tx, htx, rtx⟩ := rep_m_gf hp.x rzi (by decide) (by decide)
  obtain ⟨ty, hty, rty⟩ := rep_m_gf hp.y rzi (by decide) (by decide)
  obtain ⟨r, hr, henc⟩ := rep_pack rty (by decide)
  obtain ⟨b, hb, hpar⟩ := rep_par rtx (by decide)
  refine ⟨Function.update r 31 (r 31 ^^^ b <<< 7), by simp [pack_point, hzi, htx, hty, hr, hb], ?_⟩
  rw [← val_toFp, rty.2] at henc
  have hlt := ZMod.val_lt (v.y * v.z ^ (2 ^ 255 - 21))
  have hsplit : encoded r =
      value 256 (fun k : Fin 31 => ((r k.castSucc).toNat : ℤ)) + (r 31).toNat * 256 ^ 31 :=
    value_castSucc fun k : Fin 32 => ((r k).toNat : ℤ)
  have hlow : Digits 256 fun k : Fin 31 => ((r k.castSucc).toNat : ℤ) := by
    intro k
    have := (r k.castSucc).toNat_lt
    dsimp only
    omega
  have hnonneg := hlow.value_nonneg (by decide)
  have htop : (r 31).toNat < 128 := by omega
  have hbyte := xor_top htop (b := b) (by omega)
  have hupdate : encoded (Function.update r 31 (r 31 ^^^ b <<< 7)) =
      encoded r + (((r 31 ^^^ b <<< 7).toNat : ℤ) - (r 31).toNat) * 256 ^ 31 := by
    have hvalue := value_update (β := 256) (fun k : Fin 32 => ((r k).toNat : ℤ)) 31
      ((r 31 ^^^ b <<< 7).toNat : ℤ)
    refine Eq.trans (congrArg (value 256) (funext fun k => ?_)) hvalue
    by_cases hk : k = 31
    · subst hk
      rw [Function.update_self, Function.update_self]
    · rw [Function.update_of_ne hk, Function.update_of_ne hk]
  have hbit : (b.toNat : ℤ) = ((v.x * v.z ^ (2 ^ 255 - 21)).val : ℤ) % 2 := by
    rw [hpar]
    exact Int.natCast_emod _ _
  rw [hupdate, henc, hbyte, ← hbit]
  push_cast
  ring

theorem rep_pack_point {v : Pt Fp} {p : Pt Gf} (hp : RepPt v p) : ∃ r, pack_point p = some r := by
  obtain ⟨r, hr, -⟩ := pack_point_spec hp
  exact ⟨r, hr⟩

/-- No `i64` overflows in the point arithmetic of a check, whatever the key and the signature. -/
theorem checkPoint_exact (pk h s : Fin 32 → UInt8) : ∃ r, checkPoint pk h s = some r := by
  obtain ⟨r, hr, hrep⟩ := rep_unpackneg pk
  cases r with
  | none => exact ⟨none, by simp [checkPoint, hr]⟩
  | some q =>
    obtain ⟨v, hq⟩ := hrep q rfl
    obtain ⟨p, hp, rp, -⟩ := rep_scalarmult hq h
    obtain ⟨w, sb, hsb, rsb⟩ := rep_scalarbase s
    obtain ⟨p', hp', rp'⟩ := rep_add_pt rp rsb
    obtain ⟨o, ho⟩ := rep_pack_point rp'
    exact ⟨some o, by simp [checkPoint, hr, hp, hsb, hp', ho]⟩

/-- Field arithmetic is exact. Elements within the callers' bounds, sums and differences of at most
four reduced ones, are added, subtracted and multiplied without an `i64` overflowing; the result
represents the exact one modulo the prime and is within the bounds again, reduced after a product;
and the encoding of an element is the only one of its number modulo the prime. The callers stay
within these bounds: the point formulas take reduced coordinates to reduced coordinates, and no
step of a check overflows for any key, hash and scalar. -/
theorem field_arithmetic_exact :
    (∀ (k l : ℕ) (a b : Gf), k + l ≤ 4 → Within (k * 65573) a → Within (l * 65573) b →
      (∃ o, a_gf a b = some o ∧ Within ((k + l : ℕ) * 65573) o ∧
        o.num ≡ a.num + b.num [ZMOD prime]) ∧
      ∃ o, z_gf a b = some o ∧ Within ((k + l : ℕ) * 65573) o ∧
        o.num ≡ a.num - b.num [ZMOD prime]) ∧
    (∀ a b : Gf, Within (4 * 65573) a → Within (4 * 65573) b →
      ∃ o, m_gf a b = some o ∧ Reduced o ∧ o.num ≡ a.num * b.num [ZMOD prime]) ∧
    (∀ a : Gf, Within (4 * 65573) a → ∃ o, pack25519 a = some o ∧
      ∀ o', encoded o' = a.num % prime ↔ o' = o) ∧
    (∀ n, ∃ o, unpack25519 n = some o ∧ Reduced o) ∧
    (∀ (v w : Pt Fp) (p q : Pt Gf), RepPt v p → RepPt w q →
      ∃ r, add_pt p q = some r ∧ RepPt (Pt.add gfd2.toFp v w) r) ∧
    (∀ (v : Pt Fp) (q : Pt Gf) (s : Fin 32 → UInt8), RepPt v q →
      ∃ r, scalarmult q s = some r ∧ RepPt (Pt.ladder gfd2.toFp v s).1 r.1) ∧
    ∀ pk h s, ∃ r, checkPoint pk h s = some r := by
  refine ⟨?_, ?_, ?_, unpack25519_reduced, fun v w p q => rep_add_pt, ?_, checkPoint_exact⟩
  · intro k l a b hkl ha hb
    obtain ⟨o, ho, hwithin, hnum⟩ := a_gf_spec ha hb hkl
    obtain ⟨o', ho', hwithin', hnum'⟩ := z_gf_spec ha hb hkl
    exact ⟨⟨o, ho, hwithin, by rw [hnum]⟩, o', ho', hwithin', by rw [hnum']⟩
  · intro a b ha hb
    exact m_gf_spec (ha.mono (by decide)) (hb.mono (by decide))
  · intro a ha
    obtain ⟨o, ho, henc⟩ := pack25519_spec (ha.mono (by decide))
    refine ⟨o, ho, fun o' => ⟨fun h => encoded_injective (h.trans henc.symm), ?_⟩⟩
    rintro rfl
    exact henc
  · intro v q s hq
    obtain ⟨r, hr, hp, -⟩ := rep_scalarmult hq s
    exact ⟨r, hr, hp⟩

theorem field_arithmetic_exact_base :
    (∃ o, z_gf gfx gfy = some o ∧ Within ((1 + 1 : ℕ) * 65573) o ∧
      o.num ≡ gfx.num - gfy.num [ZMOD prime]) ∧
    (∃ o, m_gf gfx gfy = some o ∧ Reduced o ∧ o.num ≡ gfx.num * gfy.num [ZMOD prime]) ∧
    ∃ o, pack25519 gfx = some o ∧ ∀ o', encoded o' = gfx.num % prime ↔ o' = o :=
  ⟨(field_arithmetic_exact.1 1 1 gfx gfy (by decide) (by decide) (by decide)).2,
    field_arithmetic_exact.2.1 gfx gfy (by decide) (by decide),
    field_arithmetic_exact.2.2.1 gfx (by decide)⟩

end BloblyEmb.Bcrypto
