import BloblyEmb.Bcrypto.Order
import BloblyEmb.Bcrypto.Signature

/-!
# Signing

The release tool derives a key from a seed and signs with it (`bcrypto/ed25519.v`). What it signs is
accepted, and with the same first half no other second half is.
-/
namespace BloblyEmb.Bcrypto

/-- The two halves of the hashed seed: the clamped scalar, and the prefix. -/
def expand (seed : Fin 32 → UInt8) : ℕ → UInt8 :=
  let d := fun i => (Sha512.sum512 (List.ofFn seed)).getD i 0
  let d := Function.update d 0 (d 0 &&& 248)
  let d := Function.update d 31 (d 31 &&& 127)
  Function.update d 31 (d 31 ||| 64)

def publicKey (seed : Fin 32 → UInt8) : Option (Fin 32 → UInt8) := do
  let d := expand seed
  let p ← scalarbase fun i => d i
  pack_point p

/-- The digest that the nonce is taken from: of the prefix and the message. -/
def nonceDigest (d : ℕ → UInt8) (msg : List UInt8) : List UInt8 :=
  let rc := Sha512.newSha512.update ((List.range 32).map fun i => d (32 + i))
  (if 0 < msg.length then rc.update msg else rc).final

/-- The digest of the first half, the key and the message. -/
def challengeDigest (renc pk : Fin 32 → UInt8) (msg : List UInt8) : List UInt8 :=
  let kc := Sha512.newSha512.update (List.ofFn renc)
  let kc := kc.update (List.ofFn pk)
  (if 0 < msg.length then kc.update msg else kc).final

def sign (seed : Fin 32 → UInt8) (msg : List UInt8) : Option (ℕ → UInt8) := do
  let d := expand seed
  let pk ← publicKey seed
  let rdig := nonceDigest d msg
  let rr ← reduceScalar fun i => rdig.getD i 0
  let p ← scalarbase fun i => rr i
  let renc ← pack_point p
  let kdig := challengeDigest renc pk msg
  let h ← reduceScalar fun i => kdig.getD i 0
  let x ← product rr h d
  let sbytes ← modl x
  pure fun i => if hi : i < 32 then renc ⟨i, hi⟩ else sbytes (i - 32)

/-- The secret scalar of a seed. -/
def secretScalar (seed : Fin 32 → UInt8) : ℕ := scalarNum fun i => expand seed i

/-! ## The key of a seed -/

theorem encoded_eq_scalarNum (o : Fin 32 → UInt8) : encoded o = scalarNum o := by
  rw [encoded, Limbs.value, scalarNum, Nat.cast_sum]
  refine Finset.sum_congr rfl fun k _ => ?_
  rw [Nat.cast_mul, Nat.cast_pow]
  rfl

/-- The top bit of an encoded point. -/
theorem last_byte (o : Fin 32 → UInt8) : (o 31).toNat / 128 = scalarNum o / 2 ^ 255 := by
  have hdigit := digit_of_sum (B := 256) (fun k => (o k).toNat) (fun k => (o k).toNat_lt) 31
  have hlt := scalarNum_lt o
  change scalarNum o / 256 ^ 31 % 256 = (o 31).toNat at hdigit
  rw [← hdigit]
  norm_num at hlt ⊢
  omega

/-- A key that encodes a point decodes to it. -/
theorem Encodes.decodes {P : CurvePoint} {pk : Fin 32 → UInt8} (h : Encodes P pk) : Decodes pk P := by
  have hy : P.y.val < 2 ^ 255 - 19 := ZMod.val_lt P.y
  have hsign : P.x.val % 2 < 2 := Nat.mod_lt _ (by decide)
  unfold Encodes at h
  constructor
  · have hlow : encoded pk % 2 ^ 255 = (P.y.val : ℤ) := by
      rw [h, Int.add_mul_emod_self_left]
      exact Int.emod_eq_of_lt (Int.natCast_nonneg _) (by omega)
    rw [yOf, hlow, Int.cast_natCast, ZMod.natCast_zmod_val]
  · right
    rw [encoded_eq_scalarNum] at h
    have hnum : scalarNum pk = P.y.val + 2 ^ 255 * (P.x.val % 2) := by exact_mod_cast h
    rw [last_byte, hnum, Nat.add_mul_div_left _ _ (by decide), Nat.div_eq_of_lt (by omega), Nat.zero_add]

theorem publicKey_spec (seed : Fin 32 → UInt8) :
    ∃ pk, publicKey seed = some pk ∧ Encodes (secretScalar seed • basePoint) pk := by
  obtain ⟨p, hp, ip⟩ := scalarbase_isPoint fun i => expand seed i
  obtain ⟨pk, hpk, henc⟩ := pack_point_encodes ip
  refine ⟨pk, ?_, henc⟩
  simp only [publicKey, hp, Option.bind_eq_bind, Option.bind_some]
  exact hpk

/-- A point of ordinate zero is a quarter of zero. -/
theorem four_nsmul_of_y_zero {P : CurvePoint} (hy : P.y = 0) : 4 • P = 0 := by
  have hon := P.on
  unfold Edwards.OnCurve at hon
  rw [hy] at hon
  have hsquare : P.x * P.x = -1 := by linear_combination -hon
  have hx2 : (P + P).x = 0 := by
    rw [Edwards.Point.add_x, hy]
    simp
  have hy2 : (P + P).y = -1 := by
    rw [Edwards.Point.add_y, hy, hsquare]
    simp
  have hfour : 4 • P = P + P + (P + P) := by
    rw [show 4 = 2 + 2 by rfl, add_nsmul, two_nsmul]
  rw [hfour]
  refine Edwards.Point.ext ?_ ?_
  · rw [Edwards.Point.add_x, hx2]
    simp
  · rw [Edwards.Point.add_y, hx2, hy2]
    simp

/-- No multiple of the base point has the ordinate zero. -/
theorem nsmul_basePoint_y (s : ℕ) : (s • basePoint).y ≠ 0 := by
  intro hy
  have hfour := four_nsmul_of_y_zero hy
  have horder : orderNat • (s • basePoint) = 0 := by
    rw [← mul_nsmul', Nat.mul_comm, mul_nsmul', order_nsmul, smul_zero]
  have hdvd := addOrderOf_dvd_of_nsmul_eq_zero hfour
  have hdvd' := addOrderOf_dvd_of_nsmul_eq_zero horder
  have hone : addOrderOf (s • basePoint) = 1 := by
    have hcoprime : Nat.Coprime 4 orderNat := by decide +kernel
    exact Nat.eq_one_of_dvd_coprimes hcoprime hdvd hdvd'
  rw [AddMonoid.addOrderOf_eq_one_iff] at hone
  rw [hone] at hy
  exact one_ne_zero hy

/-- A derived key is not all zeros. -/
theorem publicKey_ne_zero {seed pk : Fin 32 → UInt8} (h : publicKey seed = some pk) : pk ≠ fun _ => 0 := by
  rintro rfl
  obtain ⟨pk, hpk, henc⟩ := publicKey_spec seed
  obtain rfl := Option.some.inj (h.symm.trans hpk)
  have hy := henc.decodes.y
  refine nsmul_basePoint_y _ (hy.trans ?_)
  rw [yOf, encoded_eq_scalarNum]
  simp [scalarNum]

/-! ## The signature -/

theorem map_range_eq_ofFn {n : ℕ} {f : ℕ → UInt8} {r : Fin n → UInt8} (h : ∀ i : Fin n, f i = r i) :
    (List.range n).map f = List.ofFn r := by
  refine List.ext_getElem (by simp) fun i hi hi' => ?_
  rw [List.getElem_map, List.getElem_range, List.getElem_ofFn]
  have hlt : i < n := by simpa using hi
  exact h ⟨i, hlt⟩

/-- An empty message is left out of its digest. -/
theorem challengeDigest_eq (renc pk : Fin 32 → UInt8) (msg : List UInt8)
    (hlen : 64 + msg.length < 2 ^ 61) :
    challengeDigest renc pk msg = Sha2.digest (List.ofFn renc ++ List.ofFn pk ++ msg) := by
  have hpieces : challengeDigest renc pk msg =
      ([List.ofFn renc, List.ofFn pk, msg].foldl Sha512.update Sha512.newSha512).final := by
    simp only [challengeDigest, List.foldl_cons, List.foldl_nil]
    split
    case isTrue h => with_reducible rfl
    case isFalse h =>
      have hempty : msg = [] := List.eq_nil_of_length_eq_zero (by omega)
      have hflat := @Sha512.final_flatten [List.ofFn renc, List.ofFn pk]
        [List.ofFn renc, List.ofFn pk, msg] (by simp [hempty])
      simp only [List.foldl_cons, List.foldl_nil] at hflat
      exact hflat
  have hlength : [List.ofFn renc, List.ofFn pk, msg].flatten.length < 2 ^ 61 := by
    simp only [List.flatten_cons, List.flatten_nil, List.length_append, List.length_ofFn, List.length_nil]
    omega
  rw [hpieces, Sha512.final_updates _ hlength]
  simp only [List.flatten_cons, List.flatten_nil, List.append_nil, List.append_assoc]

theorem hashScalar_eq (digest : List UInt8) {h : ℕ → UInt8}
    (hnum : num 32 (leBytes h) = num 64 (leBytes fun i => digest.getD i 0) % order) :
    (scalarNum fun i => h i) = hashScalar digest := by
  rw [num_eq_scalarNum] at hnum
  rw [hashScalar, digestNum, ← hnum, Int.toNat_natCast]

theorem sub_hash {r k a : ℕ} :
    (((r + k * a) % orderNat) • basePoint - k • a • basePoint : CurvePoint) = r • basePoint := by
  rw [nsmul_basePoint_mod, add_nsmul, mul_comm k a, mul_nsmul, add_sub_cancel_right]

theorem sign_eq {seed pk renc : Fin 32 → UInt8} {msg : List UInt8} {rr h sbytes : ℕ → UInt8}
    {p : Pt Gf} {x : Wide} (hpk : publicKey seed = some pk)
    (hrr : (reduceScalar fun i => (nonceDigest (expand seed) msg).getD i 0) = some rr)
    (hp : (scalarbase fun i => rr i) = some p) (hrenc : pack_point p = some renc)
    (hh : (reduceScalar fun i => (challengeDigest renc pk msg).getD i 0) = some h)
    (hx : product rr h (expand seed) = some x) (hs : modl x = some sbytes) :
    sign seed msg = some fun i => if hi : i < 32 then renc ⟨i, hi⟩ else sbytes (i - 32) := by
  unfold sign
  refine Option.bind_eq_some_iff.mpr ⟨pk, hpk, ?_⟩
  refine Option.bind_eq_some_iff.mpr ⟨rr, hrr, ?_⟩
  refine Option.bind_eq_some_iff.mpr ⟨p, hp, ?_⟩
  refine Option.bind_eq_some_iff.mpr ⟨renc, hrenc, ?_⟩
  refine Option.bind_eq_some_iff.mpr ⟨h, hh, ?_⟩
  refine Option.bind_eq_some_iff.mpr ⟨x, hx, ?_⟩
  exact Option.bind_eq_some_iff.mpr ⟨sbytes, hs, rfl⟩

theorem sign_spec (seed : Fin 32 → UInt8) (msg : List UInt8) (hlen : 64 + msg.length < 2 ^ 61) :
    ∃ pk sig, publicKey seed = some pk ∧ sign seed msg = some sig ∧ Accepted pk sig msg := by
  obtain ⟨pk, hpk, hkey⟩ := publicKey_spec seed
  obtain ⟨rr, hrr, -⟩ := reduceScalar_eq fun i => (nonceDigest (expand seed) msg).getD i 0
  obtain ⟨p, hp, ip⟩ := scalarbase_isPoint fun i => rr i
  obtain ⟨renc, hrenc, henc⟩ := pack_point_encodes ip
  obtain ⟨h, hh, hnum⟩ := reduceScalar_eq fun i => (challengeDigest renc pk msg).getD i 0
  obtain ⟨x, hx, hbound, hxnum⟩ := product_eq rr h (expand seed)
  obtain ⟨sbytes, hs, hsnum⟩ := modl_eq hbound
  have hlow : ∀ i : Fin 32, (if hi : (i : ℕ) < 32 then renc ⟨i, hi⟩ else sbytes (i - 32)) = renc i :=
    fun i => dif_pos i.isLt
  have hhigh : (fun i : Fin 32 => (if hi : 32 + (i : ℕ) < 32 then renc ⟨32 + i, hi⟩
      else sbytes (32 + i - 32))) = fun i : Fin 32 => sbytes i := by
    funext i
    rw [dif_neg (by omega), Nat.add_sub_cancel_left]
  -- the second half is reduced, so it is canonical
  have hscalar : (scalarNum fun i => sbytes i) =
      ((scalarNum fun i => rr i) + (scalarNum fun i => h i) * secretScalar seed) % orderNat := by
    rw [hxnum, num_eq_scalarNum, num_eq_scalarNum, num_eq_scalarNum, num_eq_scalarNum, ← orderNat_cast] at hsnum
    exact_mod_cast hsnum
  have hk := hashScalar_eq _ hnum
  rw [challengeDigest_eq renc pk msg hlen] at hk
  refine ⟨pk, _, hpk, sign_eq hpk hrr hp hrenc hh hx hs, secretScalar seed • basePoint, hkey.decodes, ?_, ?_⟩
  · rw [sigScalar, hhigh, hscalar, ← orderNat_cast]
    exact_mod_cast Nat.mod_lt _ orderNat_prime.pos
  · rw [sigScalar, hhigh, funext hlow, map_range_eq_ofFn hlow, hscalar, ← hk, sub_hash]
    exact henc

/-- With the same first half, the accepted second half is one. -/
theorem accepted_unique {pk : Fin 32 → UInt8} {sig sig' : ℕ → UInt8} {msg : List UInt8}
    (h : Accepted pk sig msg) (h' : Accepted pk sig' msg) (hfirst : ∀ i < 32, sig' i = sig i) :
    ∀ i < 64, sig' i = sig i := by
  have hR : (fun i : Fin 32 => sig' i) = fun i : Fin 32 => sig i :=
    funext fun i => hfirst i i.isLt
  have hmap : (List.range 32).map sig' = (List.range 32).map sig :=
    List.map_congr_left fun i hi => hfirst i (List.mem_range.mp hi)
  obtain ⟨A, hA, hlt, henc⟩ := h
  obtain ⟨A', hA', hlt', henc'⟩ := h'
  obtain rfl := hA'.unique hA
  rw [hmap, hR] at henc'
  have hpoint := (henc'.decodes).unique henc.decodes
  rw [sub_left_inj] at hpoint
  rw [← orderNat_cast] at hlt hlt'
  have hscalar := nsmul_basePoint_inj (by exact_mod_cast hlt') (by exact_mod_cast hlt) hpoint
  have hsecond : (fun i : Fin 32 => sig' (32 + i)) = fun i : Fin 32 => sig (32 + i) := by
    apply encoded_injective
    rw [encoded_eq_scalarNum, encoded_eq_scalarNum]
    exact_mod_cast hscalar
  intro i hi
  by_cases hlow : i < 32
  · exact hfirst i hlow
  · have hbyte := congrFun hsecond ⟨i - 32, by omega⟩
    simpa [show 32 + (i - 32) = i by omega] using hbyte

/-- Deriving a key and signing never leave the range of the integers, whatever the seed and the
message. The check of the message, in any pieces, accepts the signature under the key, and any other
signature with the same first half is refused. -/
theorem sign_verify (seed : Fin 32 → UInt8) (msg : List UInt8) (hlen : 64 + msg.length < 2 ^ 61) :
    ∃ pk sig, publicKey seed = some pk ∧ sign seed msg = some sig ∧
      (∀ chunks : List (List UInt8), chunks.flatten = msg → verifyChunks pk chunks sig = some true) ∧
      verify pk msg sig = some true ∧
      ∀ sig' : ℕ → UInt8, (∀ i < 32, sig' i = sig i) →
        (verify pk msg sig' = some true ↔ ∀ i < 64, sig' i = sig i) := by
  obtain ⟨pk, sig, hpk, hsign, haccepted⟩ := sign_spec seed msg hlen
  have hone : [msg].flatten = msg := by simp
  have hchunks : ∀ chunks : List (List UInt8), chunks.flatten = msg →
      verifyChunks pk chunks sig = some true := by
    intro chunks hflat
    obtain ⟨b, hb, hiff⟩ := verifyChunks_iff pk sig chunks (by rw [hflat]; exact hlen)
    rw [hflat] at hiff
    rw [hb, hiff.mpr haccepted]
  refine ⟨pk, sig, hpk, hsign, hchunks, ?_, ?_⟩
  · have h := hchunks [msg] hone
    rwa [← verify_eq, hone] at h
  · intro sig' hfirst
    obtain ⟨b, hb, hiff⟩ := verifyChunks_iff pk sig' [msg] (by rw [hone]; exact hlen)
    rw [← verify_eq, hone] at hb
    rw [hone] at hiff
    rw [hb, Option.some.injEq, hiff]
    constructor
    · exact fun h => accepted_unique haccepted h hfirst
    · intro hsame
      have hR : (fun i : Fin 32 => sig' i) = fun i : Fin 32 => sig i :=
        funext fun i => hfirst i i.isLt
      have hS : (fun i : Fin 32 => sig' (32 + i)) = fun i : Fin 32 => sig (32 + i) :=
        funext fun i => hsame _ (by omega)
      have hmap : (List.range 32).map sig' = (List.range 32).map sig :=
        List.map_congr_left fun i hi => hfirst i (List.mem_range.mp hi)
      unfold Accepted AcceptedBy sigScalar at haccepted ⊢
      rw [hmap, hR, hS]
      exact haccepted

theorem sign_verify_three : ∃ pk sig, publicKey (fun _ => 7) = some pk ∧
    sign (fun _ => 7) [1, 2, 3] = some sig ∧ verify pk [1, 2, 3] sig = some true := by
  obtain ⟨pk, sig, hpk, hsign, -, hverify, -⟩ := sign_verify (fun _ => 7) [1, 2, 3] (by decide)
  exact ⟨pk, sig, hpk, hsign, hverify⟩

end BloblyEmb.Bcrypto
