import BloblyEmb.Candb.Dbc
import Mathlib.Data.Nat.Bitwise
import Mathlib.Tactic.IntervalCases

/-!
# A node's network as configuration

An address, a netmask and a gateway are dotted quads that the tools read and check
(`tools/netcfg/netcfg.v`), and that the target reads once more (`driver/eth/ip4.h`). Both readings and
the tools' checks are stated here, with the arithmetic of masks they rest on.
-/
namespace BloblyEmb.Netcfg

open Candb.Dbc (Text)

abbrev U32 := BitVec 32

/-! ## Dotted quads -/

def isDigit (c : Char) : Bool := decide ('0' ≤ c) && decide (c ≤ '9')

def digit (c : Char) : ℕ := c.toNat - '0'.toNat

/-- `p.int()`, of a run of digits. -/
def intFrom (n : ℕ) (p : Text) : ℕ := p.foldl (fun n c => n * 10 + digit c) n

def int (p : Text) : ℕ := intFrom 0 p

/-- One to three digits, at most 255. -/
def Octet (p : Text) : Prop := p.length ≠ 0 ∧ p.length ≤ 3 ∧ p.all isDigit = true ∧ int p ≤ 255

instance (p : Text) : Decidable (Octet p) := inferInstanceAs (Decidable (_ ∧ _))

def pushOctet (a : U32) (o : ℕ) : U32 := (a <<< 8) ||| BitVec.ofNat 32 o

def parseParts : List Text → U32 → Option U32
  | [], a => some a
  | p :: ps, a => if Octet p then parseParts ps (pushOctet a (int p)) else none

def parse (s : Text) : Option U32 :=
  let parts := s.splitOn '.'
  if parts.length ≠ 4 then none else parseParts parts 0#32

def decimal (n : ℕ) : Text := Nat.toDigits 10 n

def dotted (a : U32) : Text :=
  ['.'].intercalate [decimal (a >>> 24).toNat, decimal ((a >>> 16) &&& 0xFF).toNat,
    decimal ((a >>> 8) &&& 0xFF).toNat, decimal (a &&& 0xFF).toNat]

theorem octet_decimal : ∀ o < 256, Octet (decimal o) ∧ int (decimal o) = o ∧ '.' ∉ decimal o := by
  decide +kernel

theorem toNat_pushOctet {a : U32} {o : ℕ} (ha : a.toNat < 2 ^ 24) (ho : o < 256) :
    (pushOctet a o).toNat = a.toNat * 256 + o := by
  have hor : a.toNat <<< 8 ||| o = a.toNat <<< 8 + o := by
    rw [Nat.shiftLeft_add_eq_or_of_lt (show o < 2 ^ 8 by omega)]
  have hshift : a.toNat <<< 8 = a.toNat * 256 := by rw [Nat.shiftLeft_eq]
  simp only [pushOctet, BitVec.toNat_or, BitVec.toNat_shiftLeft, BitVec.toNat_ofNat]
  rw [Nat.mod_eq_of_lt (by omega), Nat.mod_eq_of_lt (by omega), hor, hshift]

/-- Four octets, the first in the high byte. -/
def quad (o₀ o₁ o₂ o₃ : ℕ) : U32 := pushOctet (pushOctet (pushOctet (pushOctet 0#32 o₀) o₁) o₂) o₃

theorem toNat_quad {o₀ o₁ o₂ o₃ : ℕ} (h₀ : o₀ < 256) (h₁ : o₁ < 256) (h₂ : o₂ < 256)
    (h₃ : o₃ < 256) :
    (quad o₀ o₁ o₂ o₃).toNat = ((o₀ * 256 + o₁) * 256 + o₂) * 256 + o₃ := by
  have e₀ : (pushOctet 0#32 o₀).toNat = o₀ := by
    rw [toNat_pushOctet (by simp) h₀]; simp
  have e₁ := toNat_pushOctet (a := pushOctet 0#32 o₀) (by omega) h₁
  have e₂ := toNat_pushOctet (a := pushOctet (pushOctet 0#32 o₀) o₁) (by omega) h₂
  have e₃ := toNat_pushOctet (a := pushOctet (pushOctet (pushOctet 0#32 o₀) o₁) o₂) (by omega) h₃
  rw [quad, e₃, e₂, e₁, e₀]

theorem parse_four {p₀ p₁ p₂ p₃ : Text} (h₀ : Octet p₀) (h₁ : Octet p₁) (h₂ : Octet p₂)
    (h₃ : Octet p₃) (hdot : ∀ p ∈ [p₀, p₁, p₂, p₃], '.' ∉ p) :
    parse (['.'].intercalate [p₀, p₁, p₂, p₃]) = some (quad (int p₀) (int p₁) (int p₂) (int p₃)) := by
  have hsplit := List.splitOn_intercalate '.' hdot (by simp)
  rw [parse, hsplit]
  simp [parseParts, h₀, h₁, h₂, h₃, quad]

/-- What is written as a dotted quad is read back. -/
theorem parse_dotted (a : U32) : parse (dotted a) = some a := by
  have ha := a.isLt
  have e₀ : (a >>> 24).toNat = a.toNat / 2 ^ 24 := by simp [Nat.shiftRight_eq_div_pow]
  have hand : ∀ b : U32, (b &&& 0xFF).toNat = b.toNat % 256 := fun b => by
    simpa using Nat.and_two_pow_sub_one_eq_mod b.toNat 8
  have e₁ : ((a >>> 16) &&& 0xFF).toNat = a.toNat / 2 ^ 16 % 256 := by
    rw [hand]; simp [Nat.shiftRight_eq_div_pow]
  have e₂ : ((a >>> 8) &&& 0xFF).toNat = a.toNat / 2 ^ 8 % 256 := by
    rw [hand]; simp [Nat.shiftRight_eq_div_pow]
  have h₀ := octet_decimal (a.toNat / 2 ^ 24) (by omega)
  have h₁ := octet_decimal (a.toNat / 2 ^ 16 % 256) (by omega)
  have h₂ := octet_decimal (a.toNat / 2 ^ 8 % 256) (by omega)
  have h₃ := octet_decimal (a.toNat % 256) (by omega)
  have hdot : ∀ p ∈ [decimal (a.toNat / 2 ^ 24), decimal (a.toNat / 2 ^ 16 % 256),
      decimal (a.toNat / 2 ^ 8 % 256), decimal (a.toNat % 256)], '.' ∉ p := by
    intro p hp
    simp only [List.mem_cons, List.not_mem_nil, or_false] at hp
    obtain rfl | rfl | rfl | rfl := hp
    · exact h₀.2.2
    · exact h₁.2.2
    · exact h₂.2.2
    · exact h₃.2.2
  rw [dotted, e₀, e₁, e₂, hand, parse_four h₀.1 h₁.1 h₂.1 h₃.1 hdot, h₀.2.1, h₁.2.1, h₂.2.1, h₃.2.1]
  congr 1
  apply BitVec.eq_of_toNat_eq
  rw [toNat_quad (by omega) (by omega) (by omega) (by omega)]
  omega

/-- The parts of an accepted text. -/
theorem parse_some {s : Text} {a : U32} (h : parse s = some a) :
    ∃ p₀ p₁ p₂ p₃, s = ['.'].intercalate [p₀, p₁, p₂, p₃] ∧ Octet p₀ ∧ Octet p₁ ∧ Octet p₂ ∧ Octet p₃ ∧
      a = quad (int p₀) (int p₁) (int p₂) (int p₃) := by
  have hs : ['.'].intercalate (s.splitOn '.') = s := List.intercalate_splitOn '.'
  simp only [parse] at h
  split at h
  · cases h
  · rename_i hlen
    rw [not_not] at hlen
    obtain ⟨p₀, p₁, p₂, p₃, hp⟩ := List.length_eq_four.mp hlen
    rw [hp] at h hs
    simp only [parseParts] at h
    split at h
    case isFalse => cases h
    rename_i h₀
    split at h
    case isFalse => cases h
    rename_i h₁
    split at h
    case isFalse => cases h
    rename_i h₂
    split at h
    case isFalse => cases h
    rename_i h₃
    exact ⟨p₀, p₁, p₂, p₃, hs.symm, h₀, h₁, h₂, h₃, (Option.some.inj h).symm⟩

/-! ## The target's reading -/

/-- Where the loop of `parse_ip4` stands: the octet it is on, and the octets and their digits so far. -/
structure Quad where
  i : ℕ
  oct : ℕ → ℕ
  digits : ℕ → ℕ

/-- The loop, up to the end of the string. An octet is at most 255 before a digit is added, so nothing
overflows. -/
def parseLoop : Text → Quad → Option Quad
  | [], q => some q
  | c :: s, q =>
    if c = '\x00' then some q
    else if c = '.' then
      if 3 < q.i + 1 then none else parseLoop s { q with i := q.i + 1 }
    else if isDigit c then
      let oct := Function.update q.oct q.i (q.oct q.i * 10 + digit c)
      let digits := Function.update q.digits q.i (q.digits q.i + 1)
      if 255 < oct q.i then none else parseLoop s { q with oct, digits }
    else none

/-- The address, or 0 where the text is malformed. The macro of the network stack that packs the octets
is a parameter. -/
def parseIp4 (ipAddress : ℕ → ℕ → ℕ → ℕ → U32) (s : Text) : U32 :=
  match parseLoop s { i := 0, oct := fun _ => 0, digits := fun _ => 0 } with
  | none => 0
  | some q =>
    if q.i ≠ 3 ∨ q.digits 0 = 0 ∨ q.digits 1 = 0 ∨ q.digits 2 = 0 ∨ q.digits 3 = 0 then 0
    else ipAddress (q.oct 0) (q.oct 1) (q.oct 2) (q.oct 3)

theorem le_intFrom (p : Text) (n : ℕ) : n ≤ intFrom n p := by
  induction p generalizing n with
  | nil => exact le_rfl
  | cons c p ih => exact (show n ≤ n * 10 + digit c by omega).trans (ih _)

/-- A run of digits fills the octet the loop is on. -/
theorem parseLoop_digits (p rest : Text) (q : Quad) (hp : p.all isDigit = true)
    (hle : intFrom (q.oct q.i) p ≤ 255) :
    parseLoop (p ++ rest) q = parseLoop rest
      { q with oct := Function.update q.oct q.i (intFrom (q.oct q.i) p)
               digits := Function.update q.digits q.i (q.digits q.i + p.length) } := by
  induction p generalizing q with
  | nil => simp [intFrom]
  | cons c p ih =>
    rw [List.all_cons, Bool.and_eq_true] at hp
    have hc : c ≠ '\x00' ∧ c ≠ '.' := by
      constructor <;> rintro rfl <;> exact absurd hp.1 (by decide)
    have hstep : intFrom (q.oct q.i) (c :: p) = intFrom (q.oct q.i * 10 + digit c) p := rfl
    rw [hstep] at hle ⊢
    have hbound := (le_intFrom p (q.oct q.i * 10 + digit c)).trans hle
    rw [List.cons_append, parseLoop, if_neg hc.1, if_neg hc.2, if_pos hp.1]
    dsimp only
    rw [Function.update_self, if_neg (by omega), ih _ hp.2 (by simpa using hle)]
    simp [Function.update_idem, Nat.add_assoc, Nat.add_comm 1]

theorem parseLoop_dot (rest : Text) (q : Quad) (h : q.i < 3) :
    parseLoop ('.' :: rest) q = parseLoop rest { q with i := q.i + 1 } := by
  rw [parseLoop, if_neg (by decide), if_pos rfl, if_neg (by omega)]

/-- The macro as it is documented: the first octet in the high byte. -/
def PacksOctets (ipAddress : ℕ → ℕ → ℕ → ℕ → U32) : Prop :=
  ∀ o₀ o₁ o₂ o₃, o₀ < 256 → o₁ < 256 → o₂ < 256 → o₃ < 256 →
    ipAddress o₀ o₁ o₂ o₃ = BitVec.ofNat 32 o₀ <<< 24 ||| BitVec.ofNat 32 o₁ <<< 16 |||
      BitVec.ofNat 32 o₂ <<< 8 ||| BitVec.ofNat 32 o₃

theorem quad_eq_shifts (o₀ o₁ o₂ o₃ : ℕ) :
    quad o₀ o₁ o₂ o₃ = BitVec.ofNat 32 o₀ <<< 24 ||| BitVec.ofNat 32 o₁ <<< 16 |||
      BitVec.ofNat 32 o₂ <<< 8 ||| BitVec.ofNat 32 o₃ := by
  simp only [quad, pushOctet, BitVec.shiftLeft_or_distrib, ← BitVec.shiftLeft_add, BitVec.zero_shiftLeft,
    BitVec.zero_or, Nat.reduceAdd]

/-- The target reads an accepted text as the tools do. -/
theorem parseIp4_of_parse {ipAddress : ℕ → ℕ → ℕ → ℕ → U32} (hip : PacksOctets ipAddress)
    {s : Text} {a : U32} (h : parse s = some a) : parseIp4 ipAddress s = a := by
  obtain ⟨p₀, p₁, p₂, p₃, rfl, h₀, h₁, h₂, h₃, rfl⟩ := parse_some h
  have hs : ['.'].intercalate [p₀, p₁, p₂, p₃] = p₀ ++ '.' :: (p₁ ++ '.' :: (p₂ ++ '.' :: (p₃ ++ []))) := by
    simp [List.intercalate, List.intersperse]
  have hloop : parseLoop (['.'].intercalate [p₀, p₁, p₂, p₃])
      { i := 0, oct := fun _ => 0, digits := fun _ => 0 } =
      some { i := 3
             oct := Function.update (Function.update (Function.update (Function.update (fun _ => 0)
               0 (int p₀)) 1 (int p₁)) 2 (int p₂)) 3 (int p₃)
             digits := Function.update (Function.update (Function.update (Function.update (fun _ => 0)
               0 p₀.length) 1 p₁.length) 2 p₂.length) 3 p₃.length } := by
    rw [hs, parseLoop_digits _ _ _ h₀.2.2.1 (by simpa [int] using h₀.2.2.2), parseLoop_dot _ _ (by simp),
      parseLoop_digits _ _ _ h₁.2.2.1 (by simpa [int] using h₁.2.2.2), parseLoop_dot _ _ (by simp),
      parseLoop_digits _ _ _ h₂.2.2.1 (by simpa [int] using h₂.2.2.2), parseLoop_dot _ _ (by simp),
      parseLoop_digits _ _ _ h₃.2.2.1 (by simpa [int] using h₃.2.2.2), parseLoop]
    simp [int]
  have lt : ∀ {p : Text}, Octet p → int p < 256 := fun h => by have := h.2.2.2; omega
  rw [parseIp4, hloop]
  simp only [Function.update_apply]
  have n₀ := h₀.1
  have n₁ := h₁.1
  have n₂ := h₂.1
  have n₃ := h₃.1
  simp [n₀, n₁, n₂, n₃]
  rw [hip _ _ _ _ (lt h₀) (lt h₁) (lt h₂) (lt h₃), quad_eq_shifts]

end BloblyEmb.Netcfg
