import Mathlib.Data.List.Basic
import Mathlib.Data.Nat.Notation
import Mathlib.Tactic.Common

/-!
# Byte buffers

A buffer is written in runs of bytes, or byte by byte, and read as its first `n` bytes. What is
stored behind the bytes there is appended to them.
-/
namespace BloblyEmb.Buffer

/-- Stores bytes into a buffer, from `at'` on. -/
def store (buf : ℕ → UInt8) (at' : ℕ) (bytes : List UInt8) (k : ℕ) : UInt8 :=
  if at' ≤ k ∧ k < at' + bytes.length then bytes.getD (k - at') 0 else buf k

/-- The first `n` bytes of a buffer. -/
def prefixOf (buf : ℕ → UInt8) (n : ℕ) : List UInt8 := (List.range n).map buf

/-- Stores single bytes, in order, at their offsets from `at'` on. -/
def fill (buf : ℕ → UInt8) (at' : ℕ) (stores : List (ℕ × UInt8)) : ℕ → UInt8 :=
  stores.foldl (fun b st => store b (at' + st.1) [st.2]) buf

@[simp] theorem length_prefixOf (buf : ℕ → UInt8) (n : ℕ) : (prefixOf buf n).length = n := by
  simp [prefixOf]

theorem prefixOf_congr {buf buf' : ℕ → UInt8} {n : ℕ} (h : ∀ k < n, buf k = buf' k) :
    prefixOf buf n = prefixOf buf' n :=
  List.map_congr_left fun k hk => h k (List.mem_range.mp hk)

theorem prefixOf_add (buf : ℕ → UInt8) (n m : ℕ) :
    prefixOf buf (n + m) = prefixOf buf n ++ prefixOf (fun k => buf (n + k)) m := by
  simp [prefixOf, List.range_add, Function.comp_def]

theorem store_of_ge (buf : ℕ → UInt8) {at' k : ℕ} (bytes : List UInt8)
    (h : at' + bytes.length ≤ k) : store buf at' bytes k = buf k := if_neg (by omega)

/-- Storing behind the bytes there are appends to them. -/
theorem prefixOf_store (buf : ℕ → UInt8) (n : ℕ) (bytes : List UInt8) :
    prefixOf (store buf n bytes) (n + bytes.length) = prefixOf buf n ++ bytes := by
  apply List.ext_getElem
  · simp
  · intro k h₁ h₂
    simp only [length_prefixOf] at h₁
    simp only [prefixOf, List.getElem_map, List.getElem_range, store]
    by_cases hk : k < n
    · rw [if_neg (by omega), List.getElem_append_left (by simpa using hk)]
      simp
    · rw [if_pos ⟨by omega, h₁⟩, List.getElem_append_right (by simpa using hk)]
      simp [List.getD_eq_getElem?_getD, List.getElem?_eq_getElem (show k - n < bytes.length by omega)]

theorem prefixOf_store_zero (buf : ℕ → UInt8) {n : ℕ} {bytes : List UInt8} (h : bytes.length = n) :
    prefixOf (store buf 0 bytes) n = bytes := by
  have := prefixOf_store buf 0 bytes
  rw [Nat.zero_add, h] at this
  simpa [prefixOf] using this

/-! ## Single bytes -/

/-- A byte that no store is at keeps its value. -/
theorem fill_of_forall_ne {buf : ℕ → UInt8} {at' k : ℕ} {stores : List (ℕ × UInt8)}
    (h : ∀ st ∈ stores, at' + st.1 ≠ k) : fill buf at' stores k = buf k := by
  induction stores generalizing buf with
  | nil => rfl
  | cons st stores ih =>
    have hst := h st List.mem_cons_self
    rw [fill, List.foldl_cons]
    refine (ih fun x hx => h x (List.mem_cons_of_mem _ hx)).trans ?_
    simp only [store, List.length_singleton]
    rw [if_neg (by omega)]

/-- A byte that is stored does not depend on what the buffer held, nor on where the offsets
start. -/
theorem fill_of_mem {stores : List (ℕ × UInt8)} {i : ℕ} (h : ∃ st ∈ stores, st.1 = i)
    (buf buf' : ℕ → UInt8) (at' at'' : ℕ) :
    fill buf at' stores (at' + i) = fill buf' at'' stores (at'' + i) := by
  induction stores generalizing buf buf' with
  | nil =>
    obtain ⟨st, hst, -⟩ := h
    cases hst
  | cons st stores ih =>
    simp only [fill, List.foldl_cons]
    by_cases hlater : ∃ x ∈ stores, x.1 = i
    · exact ih hlater _ _
    · have hne : ∀ x ∈ stores, x.1 ≠ i := fun x hx hi => hlater ⟨x, hx, hi⟩
      have hfirst : st.1 = i := by
        obtain ⟨x, hx, hi⟩ := h
        rcases List.mem_cons.mp hx with rfl | hx
        · exact hi
        · exact absurd hi (hne x hx)
      refine (fill_of_forall_ne fun x hx => ?_).trans
        (Eq.trans ?_ (fill_of_forall_ne fun x hx => ?_).symm)
      · have := hne x hx
        omega
      · simp [store, hfirst]
      · have := hne x hx
        omega

end BloblyEmb.Buffer
