import Mathlib.Data.List.Basic
import Mathlib.Logic.Function.Basic
import Mathlib.Tactic.Common

/-!
# The persistence seam

A store keeps one value per block and replaces it whole. It may refuse any write, and then nothing
has changed. A power cut after some of an operation's writes leaves the same store as one that
refuses the others, so what holds for every pattern of refusals holds at every cut.
-/
namespace BloblyEmb.Fault

structure Store where
  /-- The value of each block, empty where there is none. -/
  blocks : UInt16 → List UInt8
  /-- Whether the store takes the write that comes after `k` others. -/
  accepts : ℕ → Bool
  /-- Every write taken, the last one first. -/
  log : List (UInt16 × List UInt8)

namespace Store

/-- Replaces a block's value, unless it is refused. -/
def put (st : Store) (id : UInt16) (v : List UInt8) : Bool × Store :=
  if st.accepts 0 then
    (true, ⟨Function.update st.blocks id v, fun k => st.accepts (k + 1), (id, v) :: st.log⟩)
  else (false, { st with accepts := fun k => st.accepts (k + 1) })

/-- Reads at most `cap` bytes of a block. -/
def get (st : Store) (id : UInt16) (cap : ℕ) : List UInt8 := (st.blocks id).take cap

/-- The store as the writes of `log` left it. -/
def replay (blocks : UInt16 → List UInt8) : List (UInt16 × List UInt8) → UInt16 → List UInt8
  | [] => blocks
  | (id, v) :: log => Function.update (replay blocks log) id v

variable {st : Store} {id : UInt16} {v : List UInt8}

theorem put_of_accepts (h : st.accepts 0 = true) :
    st.put id v = (true, ⟨Function.update st.blocks id v, fun k => st.accepts (k + 1),
      (id, v) :: st.log⟩) := by
  simp [put, h]

theorem put_of_refuses (h : st.accepts 0 = false) :
    st.put id v = (false, { st with accepts := fun k => st.accepts (k + 1) }) := by
  simp [put, h]

/-- A write is refused and changes nothing, or taken and replaces its block. -/
theorem put_cases (st : Store) (id : UInt16) (v : List UInt8) :
    ((st.put id v).1 = false ∧ (st.put id v).2.blocks = st.blocks ∧
      (st.put id v).2.log = st.log) ∨
    ((st.put id v).1 = true ∧ (st.put id v).2.blocks = Function.update st.blocks id v ∧
      (st.put id v).2.log = (id, v) :: st.log) := by
  cases h : st.accepts 0 with
  | false => exact .inl (by simp [put_of_refuses h])
  | true => exact .inr (by simp [put_of_accepts h])

end Store

end BloblyEmb.Fault
