import Mathlib.Data.Fin.VecNotation
import Mathlib.Data.List.FinRange
import Mathlib.Data.List.GetD
import Mathlib.Tactic.Common

/-!
# AES-128

The block cipher as its standard defines it: bytes are elements of the field of 256, the S-box is the
inverse followed by an affine map, a state is four rows of four columns, and a round substitutes,
shifts rows, multiplies columns by a matrix and adds a round key. No table enters the definitions.
-/
namespace BloblyEmb.Aes

/-! ## The field of 256 elements -/

/-- The product of two polynomials over the bits, without carries. -/
def clmul (a b : UInt8) : UInt16 :=
  (List.range 8).foldl (fun r i =>
    if a.toNat.testBit i then r ^^^ (b.toUInt16 <<< UInt16.ofNat i) else r) 0

/-- The remainder by `x ^ 8 + x ^ 4 + x ^ 3 + x + 1`. -/
def reduce (a : UInt16) : UInt8 :=
  ((List.range 7).foldl (fun r i =>
    if r.toNat.testBit (14 - i) then r ^^^ (0x11b <<< UInt16.ofNat (6 - i)) else r) a).toUInt8

/-- Multiplication in the field. -/
def mul (a b : UInt8) : UInt8 := reduce (clmul a b)

/-- The inverse in the field, 0 for 0: the power 254. -/
def inv (a : UInt8) : UInt8 :=
  let a2 := mul a a
  let a4 := mul a2 a2
  let a8 := mul a4 a4
  let a16 := mul a8 a8
  let a32 := mul a16 a16
  let a64 := mul a32 a32
  let a128 := mul a64 a64
  mul a2 (mul a4 (mul a8 (mul a16 (mul a32 (mul a64 a128)))))

/-- The affine map of the S-box: bit `i` is the sum of bits `i`, `i + 4`, `i + 5`, `i + 6` and
`i + 7` modulo 8, and of bit `i` of 63 hexadecimal. -/
def affine (b : UInt8) : UInt8 :=
  (List.range 8).foldl (fun r i =>
    if (b.toNat.testBit i ^^ b.toNat.testBit ((i + 4) % 8) ^^ b.toNat.testBit ((i + 5) % 8) ^^
        b.toNat.testBit ((i + 6) % 8) ^^ b.toNat.testBit ((i + 7) % 8) ^^ Nat.testBit 0x63 i) then
      r ||| (1 <<< UInt8.ofNat i)
    else r) 0

/-- SBox -/
def sBox (b : UInt8) : UInt8 := affine (inv b)

/-! ## Rounds -/

/-- A state: the byte in row `r` and column `c`. -/
abbrev State := Fin 4 → Fin 4 → UInt8

/-- The state of a block, column by column. -/
def State.load (b : List UInt8) : State := fun r c => b.getD (r + 4 * c) 0

/-- The block of a state. -/
def State.bytes (s : State) : List UInt8 :=
  (List.finRange 16).map fun i : Fin 16 => s ⟨i % 4, by omega⟩ ⟨i / 4, by omega⟩

def subBytes (s : State) : State := fun r c => sBox (s r c)

/-- Row `r` is rotated by `r`. -/
def shiftRows (s : State) : State := fun r c => s r (c + r)

/-- The matrix of MixColumns: each row is the first, rotated. -/
def mixMatrix (r k : Fin 4) : UInt8 := ![2, 3, 1, 1] (k - r)

def mixColumns (s : State) : State := fun r c =>
  (List.finRange 4).foldl (fun x k => x ^^^ mul (mixMatrix r k) (s k c)) 0

/-- The key schedule: byte `b` of word `i`. -/
abbrev Schedule := ℕ → Fin 4 → UInt8

def addRoundKey (w : Schedule) (round : ℕ) (s : State) : State := fun r c =>
  s r c ^^^ w (4 * round + c) r

/-- The round constant `x ^ (j - 1)`. -/
def rcon (j : ℕ) : UInt8 := (mul 2)^[j - 1] 1

/-- The key schedule of a key of four words. -/
def expand (key : List UInt8) (i : ℕ) : Fin 4 → UInt8 :=
  if i < 4 then fun b => key.getD (4 * i + b) 0
  else if i % 4 = 0 then fun b =>
    -- the previous word rotated and substituted, and the round constant in its first byte
    expand key (i - 4) b ^^^ (sBox (expand key (i - 1) (b + 1)) ^^^ if b = 0 then rcon (i / 4) else 0)
  else fun b => expand key (i - 4) b ^^^ expand key (i - 1) b
termination_by i

def cipher (w : Schedule) (s : State) : State :=
  let s := addRoundKey w 0 s
  let s := (List.range 9).foldl (fun s i =>
    addRoundKey w (i + 1) (mixColumns (shiftRows (subBytes s)))) s
  addRoundKey w 10 (shiftRows (subBytes s))

/-- A block encrypted under a key. -/
def encrypt (key block : List UInt8) : List UInt8 := (cipher (expand key) (.load block)).bytes

/-! ## Blocks and states -/

theorem length_bytes (s : State) : s.bytes.length = 16 := by
  simp [State.bytes]

theorem bytes_load {b : List UInt8} (h : b.length = 16) : (State.load b).bytes = b := by
  refine List.ext_getElem (by rw [length_bytes, h]) fun i hi hi' => ?_
  rw [length_bytes] at hi
  simp only [State.bytes, State.load, List.getElem_map, List.getElem_finRange, Fin.val_cast]
  rw [show i % 4 + 4 * (i / 4) = i by omega, List.getD_eq_getElem _ _ hi']

theorem expand_of_lt {key : List UInt8} {i : ℕ} (h : i < 4) (b : Fin 4) :
    expand key i b = key.getD (4 * i + b) 0 := by
  rw [expand, if_pos h]

theorem expand_of_le {key : List UInt8} {i : ℕ} (h : 4 ≤ i) (b : Fin 4) :
    expand key i b = expand key (i - 4) b ^^^ if i % 4 = 0 then
      sBox (expand key (i - 1) (b + 1)) ^^^ (if b = 0 then rcon (i / 4) else 0)
        else expand key (i - 1) b := by
  rw [expand, if_neg (by omega)]
  by_cases hi : i % 4 = 0
  · rw [if_pos hi, if_pos hi]
  · rw [if_neg hi, if_neg hi]

end BloblyEmb.Aes
