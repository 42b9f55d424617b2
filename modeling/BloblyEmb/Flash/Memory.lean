import Mathlib.Data.List.Basic
import Mathlib.Data.Set.Basic
import Mathlib.Tactic.Common

/-!
# Flash cells

A flash is a map from addresses to cells. A cell is erased, and then reads `0xFF`,
or holds the byte that was programmed since it was last erased. Programming writes
bytes over a range; erasing returns a range, or with an interruption any part of it,
to the erased state.

Nothing here knows who uses the flash or what it stores.
-/
namespace BloblyEmb.Flash

/-- One byte of flash: erased, or programmed since the last erase. -/
abbrev Cell := Option UInt8

/-- The content of a flash by absolute address. -/
abbrev Mem := ℕ → Cell

namespace Mem

/-- What a read returns: an erased cell reads `0xFF`. -/
def byte (m : Mem) (a : ℕ) : UInt8 := (m a).getD 0xFF

/-- The `n` bytes read from address `a` on. -/
def bytes (m : Mem) (a n : ℕ) : List UInt8 := (List.range n).map fun i => m.byte (a + i)

/-- Every cell of `[a, a+n)` is erased. -/
def erased (m : Mem) (a n : ℕ) : Bool := (List.range n).all fun i => (m (a + i)).isNone

/-- The bytes `bs` programmed from address `a` on. -/
def write (m : Mem) (a : ℕ) (bs : List UInt8) : Mem := fun x =>
  if a ≤ x then (bs[x - a]?).or (m x) else m x

/-- The cells that `p` names return to the erased state. -/
def wipe (m : Mem) (p : ℕ → Bool) : Mem := fun x => if p x then none else m x

@[simp] theorem length_bytes (m : Mem) (a n : ℕ) : (m.bytes a n).length = n := by simp [bytes]

theorem getD_bytes (m : Mem) (a n i : ℕ) (d : UInt8) (h : i < n) :
    (m.bytes a n).getD i d = m.byte (a + i) := by
  simp [List.getD_eq_getElem?_getD, bytes, h]

/-- A read depends on the cells of its range only. -/
theorem bytes_congr {m m' : Mem} {a n : ℕ} (h : ∀ x, a ≤ x → x < a + n → m x = m' x) :
    m.bytes a n = m'.bytes a n := by
  simp only [bytes, byte]
  refine List.map_congr_left fun i hi => ?_
  rw [h (a + i) (by omega) (by have := List.mem_range.mp hi; omega)]

/-- Splitting a read in two. -/
theorem bytes_add (m : Mem) (a n k : ℕ) :
    m.bytes a (n + k) = m.bytes a n ++ m.bytes (a + n) k := by
  simp [bytes, List.range_add, Function.comp_def, Nat.add_assoc]

/-! ## Programming -/

theorem write_of_lt (m : Mem) (a x : ℕ) (bs : List UInt8) (h : x < a) :
    m.write a bs x = m x := by simp [write, Nat.not_le.mpr h]

theorem write_of_ge (m : Mem) (a x : ℕ) (bs : List UInt8) (h : a + bs.length ≤ x) :
    m.write a bs x = m x := by
  simp only [write]
  split
  · rw [List.getElem?_eq_none (by omega)]; rfl
  · rfl

/-- Programming changes nothing outside its range. -/
theorem write_outside (m : Mem) (a x : ℕ) (bs : List UInt8)
    (h : x < a ∨ a + bs.length ≤ x) : m.write a bs x = m x := by
  rcases h with h | h
  · exact write_of_lt m a x bs h
  · exact write_of_ge m a x bs h

theorem write_inside (m : Mem) (a i : ℕ) (bs : List UInt8) (h : i < bs.length) :
    m.write a bs (a + i) = some bs[i] := by
  simp [write, List.getElem?_eq_getElem h]

@[simp] theorem write_nil (m : Mem) (a : ℕ) : m.write a [] = m := by
  funext x
  by_cases h : x < a
  · exact write_of_lt m a x [] h
  · exact write_of_ge m a x [] (by simpa using h)

theorem byte_write_outside (m : Mem) (a x : ℕ) (bs : List UInt8)
    (h : x < a ∨ a + bs.length ≤ x) : (m.write a bs).byte x = m.byte x := by
  simp [byte, write_outside m a x bs h]

theorem byte_write_inside (m : Mem) (a i : ℕ) (bs : List UInt8) (h : i < bs.length) :
    (m.write a bs).byte (a + i) = bs[i] := by
  simp [byte, write_inside m a i bs h]

/-! ## Erasing -/

theorem wipe_of_not (m : Mem) (p : ℕ → Bool) (x : ℕ) (h : p x = false) : m.wipe p x = m x := by
  simp [wipe, h]

end Mem
end BloblyEmb.Flash
