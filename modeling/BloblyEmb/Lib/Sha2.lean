import Mathlib.Algebra.Order.Ring.Nat
import Mathlib.Data.Nat.NthRoot.Defs
import Mathlib.Data.Nat.Notation
import Mathlib.Tactic.Common

/-!
# SHA-512

The hash as its standard defines it, on words of 64 bits, for messages of whole bytes. The constants
are computed from the primes that they are roots of.
-/
namespace BloblyEmb.Sha2

abbrev Word := BitVec 64

/-! ## Functions and constants -/

def ch (x y z : Word) : Word := (x &&& y) ^^^ (~~~x &&& z)
def maj (x y z : Word) : Word := (x &&& y) ^^^ (x &&& z) ^^^ (y &&& z)

def bigSigma0 (x : Word) : Word := x.rotateRight 28 ^^^ x.rotateRight 34 ^^^ x.rotateRight 39
def bigSigma1 (x : Word) : Word := x.rotateRight 14 ^^^ x.rotateRight 18 ^^^ x.rotateRight 41
def sigma0 (x : Word) : Word := x.rotateRight 1 ^^^ x.rotateRight 8 ^^^ (x >>> 7)
def sigma1 (x : Word) : Word := x.rotateRight 19 ^^^ x.rotateRight 61 ^^^ (x >>> 6)

/-- The first eighty primes. -/
def primes : List ℕ :=
  (List.range 410).filter fun n => decide (2 ≤ n ∧ ∀ m ∈ List.range n, n % m = 0 → m < 2)

/-- The first 64 bits of the fraction of a root. -/
def rootFraction (k p : ℕ) : Word := BitVec.ofNat 64 (Nat.nthRoot k (p * 2 ^ (64 * k)))

def constants : List Word := primes.map (rootFraction 3)

/-- Eight words, the state of the hash or the working variables. -/
structure Regs (α : Type) where
  a : α
  b : α
  c : α
  d : α
  e : α
  f : α
  g : α
  h : α
deriving DecidableEq

namespace Regs

variable {α β : Type}

def map (φ : α → β) (r : Regs α) : Regs β :=
  ⟨φ r.a, φ r.b, φ r.c, φ r.d, φ r.e, φ r.f, φ r.g, φ r.h⟩

def toList (r : Regs α) : List α := [r.a, r.b, r.c, r.d, r.e, r.f, r.g, r.h]

/-- Word by word. -/
def add [Add α] (r s : Regs α) : Regs α :=
  ⟨r.a + s.a, r.b + s.b, r.c + s.c, r.d + s.d, r.e + s.e, r.f + s.f, r.g + s.g, r.h + s.h⟩

@[simp] theorem map_add [Add α] [Add β] {φ : α → β} (hφ : ∀ x y, φ (x + y) = φ x + φ y)
    (r s : Regs α) : (r.add s).map φ = (r.map φ).add (s.map φ) := by
  simp [map, add, hφ]

end Regs

def initial : Regs Word where
  a := rootFraction 2 2
  b := rootFraction 2 3
  c := rootFraction 2 5
  d := rootFraction 2 7
  e := rootFraction 2 11
  f := rootFraction 2 13
  g := rootFraction 2 17
  h := rootFraction 2 19

/-! ## One block -/

/-- The message schedule of a block. -/
def schedule (M : ℕ → Word) (t : ℕ) : Word :=
  if t < 16 then M t
  else sigma1 (schedule M (t - 2)) + schedule M (t - 7) + sigma0 (schedule M (t - 15)) +
    schedule M (t - 16)
termination_by t

def round (k w : Word) (r : Regs Word) : Regs Word :=
  let t1 := r.h + bigSigma1 r.e + ch r.e r.f r.g + k + w
  let t2 := bigSigma0 r.a + maj r.a r.b r.c
  ⟨t1 + t2, r.a, r.b, r.c, r.d + t1, r.e, r.f, r.g⟩

def compress (H : Regs Word) (M : ℕ → Word) : Regs Word :=
  H.add ((List.range 80).foldl (fun r t => round (constants.getD t 0) (schedule M t) r) H)

/-! ## The message -/

/-- Bytes as a word, the first the highest. -/
def word (bytes : List UInt8) : Word :=
  bytes.foldl (fun w b => (w <<< 8) ||| b.toBitVec.setWidth 64) 0

/-- The words of block `i`. -/
def block (m : List UInt8) (i : ℕ) (t : ℕ) : Word := word ((m.drop (128 * i + 8 * t)).take 8)

/-- The state after the first `n` blocks. -/
def absorb (m : List UInt8) (n : ℕ) : Regs Word :=
  (List.range n).foldl (fun H i => compress H (block m i)) initial

/-- How many zero bits go behind the one bit that ends a message of `l` bits: as few as leave 128 in
the last block. -/
def zeroBits (l : ℕ) : ℕ := (896 + 1024 - (l + 1) % 1024) % 1024

/-- A number as `n` bytes, the highest first. -/
def bytes (n : ℕ) (x : BitVec (8 * n)) : List UInt8 :=
  (List.range n).map fun i => UInt8.ofBitVec (x.extractLsb' (8 * (n - 1 - i)) 8)

/-- The one bit and seven of the zeros are a byte. -/
def pad (m : List UInt8) : List UInt8 :=
  m ++ [0x80] ++ List.replicate (zeroBits (8 * m.length) / 8) 0 ++
    bytes 16 (BitVec.ofNat 128 (8 * m.length))

def digest (m : List UInt8) : List UInt8 :=
  (absorb (pad m) ((pad m).length / 128)).toList.flatMap (bytes 8)

/-! ## Facts -/

theorem schedule_of_lt (M : ℕ → Word) {t : ℕ} (h : t < 16) : schedule M t = M t := by
  rw [schedule, if_pos h]

theorem schedule_of_le (M : ℕ → Word) {t : ℕ} (h : 16 ≤ t) :
    schedule M t = sigma1 (schedule M (t - 2)) + schedule M (t - 7) + sigma0 (schedule M (t - 15)) +
      schedule M (t - 16) := by
  rw [schedule, if_neg (Nat.not_lt_of_le h)]

theorem absorb_zero (m : List UInt8) : absorb m 0 = initial := by
  rw [absorb, List.range_zero, List.foldl_nil]

theorem absorb_succ (m : List UInt8) (n : ℕ) :
    absorb m (n + 1) = compress (absorb m n) (block m n) := by
  rw [absorb, List.range_succ, List.foldl_append]
  rfl

/-- A block is there before what follows it. -/
theorem block_append (m m' : List UInt8) {i t : ℕ} (hi : 128 * (i + 1) ≤ m.length) (ht : t < 16) :
    block (m ++ m') i t = block m i t := by
  rw [block, List.drop_append_of_le_length (by omega),
    List.take_append_of_le_length (by rw [List.length_drop]; omega)]
  rfl

theorem schedule_congr {M M' : ℕ → Word} (h : ∀ t < 16, M t = M' t) (t : ℕ) :
    schedule M t = schedule M' t := by
  induction t using Nat.strongRecOn with
  | ind t ih =>
    rcases Nat.lt_or_ge t 16 with hlt | hge
    · rw [schedule_of_lt M hlt, schedule_of_lt M' hlt, h t hlt]
    · rw [schedule_of_le M hge, schedule_of_le M' hge, ih (t - 2) (by omega), ih (t - 7) (by omega),
        ih (t - 15) (by omega), ih (t - 16) (by omega)]

theorem compress_congr (H : Regs Word) {M M' : ℕ → Word} (h : ∀ t < 16, M t = M' t) :
    compress H M = compress H M' := by
  unfold compress
  simp only [schedule_congr h]

/-- The first blocks do not depend on what comes after them. -/
theorem absorb_append (m m' : List UInt8) {n : ℕ} (h : 128 * n ≤ m.length) :
    absorb (m ++ m') n = absorb m n := by
  induction n with
  | zero => rw [absorb_zero, absorb_zero]
  | succ n ih =>
    rw [absorb_succ, absorb_succ, ih (by omega)]
    exact compress_congr _ fun t ht => block_append m m' h ht

end BloblyEmb.Sha2
