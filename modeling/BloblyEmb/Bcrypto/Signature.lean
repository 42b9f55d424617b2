import BloblyEmb.Bcrypto.Curve
import BloblyEmb.Bcrypto.Digest
import BloblyEmb.Bcrypto.Scalar

/-!
# The check of a signature

A verifier takes the message in any pieces (`bcrypto/ed25519.v`). It accepts just if the key decodes,
the second half of the signature is below the order, and its first half encodes the point that the
rest gives.
-/
namespace BloblyEmb.Bcrypto

structure Verifier where
  /-- The negated key, none when it does not decode. -/
  q : Option (Pt Gf)
  hc : Sha512
  sig : ℕ → UInt8

def verifyStart (pubkey : Fin 32 → UInt8) (sig : ℕ → UInt8) : Option Verifier := do
  let q ← unpackneg pubkey
  let hc := Sha512.newSha512.update ((List.range 32).map sig)
  let hc := hc.update (List.ofFn pubkey)
  pure ⟨q, hc, sig⟩

def Verifier.update (v : Verifier) (data : List UInt8) : Verifier := { v with hc := v.hc.update data }

def Verifier.finish (v : Verifier) : Option Bool :=
  match v.q with
  | none => pure false
  | some q =>
    if sCanonical v.sig 32 = false then pure false
    else do
      let digest := v.hc.final
      let h ← reduceScalar fun i => digest.getD i 0
      let (p, _) ← scalarmult q fun i => h i
      let sb ← scalarbase fun i => v.sig (32 + i)
      let p ← add_pt p sb
      let packed ← pack_point p
      pure (decide (crypto_verify_32 (fun i => v.sig i) packed = 0))

def verify (pubkey : Fin 32 → UInt8) (msg : List UInt8) (sig : ℕ → UInt8) : Option Bool := do
  let v ← verifyStart pubkey sig
  (if 0 < msg.length then v.update msg else v).finish

/-- The check of a message that comes in pieces. -/
def verifyChunks (pubkey : Fin 32 → UInt8) (chunks : List (List UInt8)) (sig : ℕ → UInt8) :
    Option Bool := do
  let v ← verifyStart pubkey sig
  (chunks.foldl Verifier.update v).finish

/-! ## What a signature is -/

/-- The number that a digest stands for. -/
def digestNum (digest : List UInt8) : ℤ := num 64 (leBytes fun i => digest.getD i 0)

/-- `S`, the second half of a signature. -/
def sigScalar (sig : ℕ → UInt8) : ℕ := scalarNum fun i => sig (32 + i)

/-- The scalar of a digest. -/
def hashScalar (digest : List UInt8) : ℕ := (digestNum digest % order).toNat

/-- The key decodes to `A`, `S` is below the order, and the first half of the signature encodes
`[S]B - [H]A` for the digest `H`. -/
def AcceptedBy (pk : Fin 32 → UInt8) (sig : ℕ → UInt8) (digest : List UInt8) : Prop :=
  ∃ A, Decodes pk A ∧ (sigScalar sig : ℤ) < order ∧
    Encodes (sigScalar sig • basePoint - hashScalar digest • A) fun i => sig i

/-- It is accepted by the digest of its first half, the key and the message. -/
def Accepted (pk : Fin 32 → UInt8) (sig : ℕ → UInt8) (msg : List UInt8) : Prop :=
  AcceptedBy pk sig (Sha2.digest ((List.range 32).map sig ++ List.ofFn pk ++ msg))

/-! ## The verifier -/

theorem isPoint_zero : IsPoint 0 ⟨gf0, gf1, gf1, gf0⟩ :=
  have hzero : Rep 1 0 gf0 := rep_gf0.mono (by decide)
  ⟨⟨0, 1, 1, 0⟩, ⟨hzero, rep_gf1, rep_gf1, hzero⟩, Stands.zero⟩

theorem num_eq_scalarNum (b : ℕ → UInt8) : num 32 (leBytes b) = scalarNum fun i => b i := by
  rw [num, Limbs.value, scalarNum, Nat.cast_sum]
  refine Finset.sum_congr rfl fun k _ => ?_
  rw [Nat.cast_mul, Nat.cast_pow]
  rfl

theorem Encodes.iff_eq {P : CurvePoint} {r : Fin 32 → UInt8} (h : Encodes P r)
    (r' : Fin 32 → UInt8) : Encodes P r' ↔ r' = r := by
  constructor
  · exact fun h' => encoded_injective (h'.trans h.symm)
  · rintro rfl
    exact h

/-- By what the context has hashed when it finishes. -/
theorem finish_eq {pk : Fin 32 → UInt8} (sig : ℕ → UInt8) {q : Option (Pt Gf)}
    (hq : unpackneg pk = some q) (hc : Sha512) :
    ∃ b, Verifier.finish ⟨q, hc, sig⟩ = some b ∧ (b = true ↔ AcceptedBy pk sig hc.final) := by
  rcases unpackneg_decodes pk with ⟨hnone, hno⟩ | ⟨q', A, hsome, hpoint, hA⟩
  · rw [hnone] at hq
    obtain rfl := Option.some.inj hq
    refine ⟨false, rfl, ?_⟩
    simp only [Bool.false_eq_true, false_iff]
    rintro ⟨A, hA, -⟩
    exact hno A hA
  · rw [hsome] at hq
    obtain rfl := Option.some.inj hq
    have hcanonical := sCanonical_order sig
    rw [num_eq_scalarNum] at hcanonical
    cases hs : sCanonical sig 32 with
    | false =>
      refine ⟨false, by simp [Verifier.finish, hs], ?_⟩
      simp only [Bool.false_eq_true, false_iff]
      rintro ⟨-, -, hlt, -⟩
      rw [hcanonical.mpr hlt] at hs
      cases hs
    | true =>
      obtain ⟨h, hh, hnum⟩ := reduceScalar_eq fun i => hc.final.getD i 0
      obtain ⟨⟨p, p'⟩, hp, ip⟩ := scalarmult_isPoint hpoint fun i => h i
      obtain ⟨sb, hsb, isb⟩ := scalarbase_isPoint fun i => sig (32 + i)
      obtain ⟨r, hr, ir⟩ := add_pt_isPoint ip isb
      obtain ⟨packed, hpacked, hencodes⟩ := pack_point_encodes ir
      refine ⟨decide (crypto_verify_32 (fun i => sig i) packed = 0), ?_, ?_⟩
      · simp only [Verifier.finish, hs, hh, hp, hsb, hr, hpacked, Option.bind_eq_bind,
          Option.bind_some, Option.pure_def, Bool.true_eq_false, if_false]
      have hscalar : (scalarNum fun i => h i) = hashScalar hc.final := by
        rw [num_eq_scalarNum] at hnum
        rw [hashScalar, digestNum, ← hnum, Int.toNat_natCast]
      have hsum : hashScalar hc.final • -A + sigScalar sig • basePoint =
          sigScalar sig • basePoint - hashScalar hc.final • A := by
        rw [smul_neg, neg_add_eq_sub]
      rw [hscalar] at hencodes
      change Encodes (hashScalar hc.final • -A + sigScalar sig • basePoint) packed at hencodes
      rw [hsum] at hencodes
      rw [decide_eq_true_eq, crypto_verify_32_eq_zero, ← hencodes.iff_eq]
      constructor
      · exact fun henc => ⟨A, hA, hcanonical.mp hs, henc⟩
      · rintro ⟨A', hA', -, henc⟩
        rwa [hA'.unique hA] at henc

theorem finish_congr (q : Option (Pt Gf)) (sig : ℕ → UInt8) {hc hc' : Sha512}
    (h : hc.final = hc'.final) : Verifier.finish ⟨q, hc, sig⟩ = Verifier.finish ⟨q, hc', sig⟩ := by
  unfold Verifier.finish
  simp only [h]

theorem foldl_update_hc (chunks : List (List UInt8)) (v : Verifier) :
    chunks.foldl Verifier.update v = { v with hc := chunks.foldl Sha512.update v.hc } := by
  induction chunks generalizing v with
  | nil => rfl
  | cons data chunks ih => exact ih (v.update data)

/-- A check in pieces is a hash in pieces. -/
theorem verifyChunks_eq (pk : Fin 32 → UInt8) (sig : ℕ → UInt8) (chunks : List (List UInt8)) :
    verifyChunks pk chunks sig = (unpackneg pk).bind fun q => Verifier.finish
      ⟨q, ([(List.range 32).map sig, List.ofFn pk] ++ chunks).foldl Sha512.update Sha512.newSha512,
        sig⟩ := by
  simp only [verifyChunks, verifyStart, Option.bind_eq_bind, Option.bind_assoc, Option.pure_def,
    Option.bind_some, foldl_update_hc, List.foldl_append, List.foldl_cons, List.foldl_nil]

/-- The pieces do not matter. -/
theorem verifyChunks_flatten (pk : Fin 32 → UInt8) (sig : ℕ → UInt8) {chunks chunks' : List (List UInt8)}
    (h : chunks.flatten = chunks'.flatten) : verifyChunks pk chunks sig = verifyChunks pk chunks' sig := by
  have hfinal := @Sha512.final_flatten ([(List.range 32).map sig, List.ofFn pk] ++ chunks)
    ([(List.range 32).map sig, List.ofFn pk] ++ chunks') (by simp [h])
  rw [verifyChunks_eq, verifyChunks_eq]
  exact congrArg (unpackneg pk).bind (funext fun q => finish_congr q sig hfinal)

theorem verify_eq (pk : Fin 32 → UInt8) (sig : ℕ → UInt8) (chunks : List (List UInt8)) :
    verify pk chunks.flatten sig = verifyChunks pk chunks sig := by
  by_cases hmsg : 0 < chunks.flatten.length
  · have hone := verifyChunks_flatten pk sig (show [chunks.flatten].flatten = chunks.flatten by simp)
    rw [← hone]
    simp only [verify, verifyChunks, if_pos hmsg, List.foldl_cons, List.foldl_nil]
  · have hempty : chunks.flatten = [] := List.eq_nil_of_length_eq_zero (by omega)
    have hnone := @verifyChunks_flatten pk sig [] chunks (by rw [hempty, List.flatten_nil])
    rw [← hnone]
    simp only [verify, verifyChunks, if_neg hmsg, List.foldl_nil]

theorem verifyChunks_iff (pk : Fin 32 → UInt8) (sig : ℕ → UInt8) (chunks : List (List UInt8))
    (hlen : 64 + chunks.flatten.length < 2 ^ 61) :
    ∃ b, verifyChunks pk chunks sig = some b ∧ (b = true ↔ Accepted pk sig chunks.flatten) := by
  obtain ⟨q, hq, -⟩ := unpackneg_spec pk
  have hfinal := Sha512.final_updates ([(List.range 32).map sig, List.ofFn pk] ++ chunks) (by
    simp only [List.cons_append, List.nil_append, List.flatten_cons, List.length_append,
      List.length_map, List.length_range, List.length_ofFn]
    omega)
  obtain ⟨b, hb, hiff⟩ := finish_eq sig hq
    (([(List.range 32).map sig, List.ofFn pk] ++ chunks).foldl Sha512.update Sha512.newSha512)
  rw [hfinal, show ([(List.range 32).map sig, List.ofFn pk] ++ chunks).flatten =
    (List.range 32).map sig ++ List.ofFn pk ++ chunks.flatten by simp] at hiff
  refine ⟨b, ?_, hiff⟩
  rw [verifyChunks_eq, hq]
  exact hb

/-- The point formulas are the sum and the multiples of points of the curve, and a key is decoded to
its point just if it has one. The check of a message in pieces says the same as the check of it in one
piece; and it accepts just if the key decodes to a point `A`, the second half `S` of the signature is
below the order, and the first half encodes `[S]B - [H]A`. -/
theorem verify_correct :
    (∀ (P Q : CurvePoint) (p q : Pt Gf), IsPoint P p → IsPoint Q q →
      ∃ r, add_pt p q = some r ∧ IsPoint (P + Q) r) ∧
    (∀ (P : CurvePoint) (q : Pt Gf) (s : Fin 32 → UInt8), IsPoint P q →
      ∃ r, scalarmult q s = some r ∧ IsPoint (scalarNum s • P) r.1) ∧
    (∀ pk, (unpackneg pk = some none ∧ ∀ A, ¬Decodes pk A) ∨
      ∃ q A, unpackneg pk = some (some q) ∧ IsPoint (-A) q ∧ Decodes pk A) ∧
    (∀ (pk : Fin 32 → UInt8) (sig : ℕ → UInt8) (chunks : List (List UInt8)),
      verifyChunks pk chunks sig = verify pk chunks.flatten sig) ∧
    ∀ (pk : Fin 32 → UInt8) (sig : ℕ → UInt8) (msg : List UInt8), 64 + msg.length < 2 ^ 61 →
      ∃ b, verify pk msg sig = some b ∧ (b = true ↔ Accepted pk sig msg) := by
  refine ⟨fun P Q p q => add_pt_isPoint, fun P q s hq => scalarmult_isPoint hq s, unpackneg_decodes,
    fun pk sig chunks => (verify_eq pk sig chunks).symm, fun pk sig msg hlen => ?_⟩
  have hone : [msg].flatten = msg := by simp
  obtain ⟨b, hb, hiff⟩ := verifyChunks_iff pk sig [msg] (by rw [hone]; exact hlen)
  rw [← verify_eq, hone] at hb
  rw [hone] at hiff
  exact ⟨b, hb, hiff⟩

theorem verify_correct_zero :
    (∃ r, add_pt ⟨gf0, gf1, gf1, gf0⟩ ⟨gf0, gf1, gf1, gf0⟩ = some r ∧ IsPoint (0 + 0) r) ∧
      (∃ r, scalarmult ⟨gf0, gf1, gf1, gf0⟩ (fun _ => 3) = some r ∧
        IsPoint ((scalarNum fun _ => 3) • 0) r.1) ∧
        ∃ b, verify (fun _ => 0) [1, 2, 3] (fun _ => 0) = some b ∧
          (b = true ↔ Accepted (fun _ => 0) (fun _ => 0) [1, 2, 3]) :=
  ⟨verify_correct.1 0 0 _ _ isPoint_zero isPoint_zero,
    verify_correct.2.1 0 _ (fun _ => 3) isPoint_zero,
    verify_correct.2.2.2.2 (fun _ => 0) (fun _ => 0) [1, 2, 3] (by decide)⟩

end BloblyEmb.Bcrypto
