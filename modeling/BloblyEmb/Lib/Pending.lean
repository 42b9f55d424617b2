import Mathlib.Data.List.Induction
import Mathlib.Tactic.Common

/-!
# What a history leaves open

An entry of a history opens something and a later entry settles it: a start and its finish, a
request and its answer. What is still open after one more entry is what that entry opens, and what
was open before and is not settled by it.
-/
namespace BloblyEmb.Trace

universe u
variable {α : Type u} {P P' Q Q' : α → Prop} {hist : List α} {x : α}

/-- An entry meets `P` and none after it meets `Q`. -/
def Open (P Q : α → Prop) (hist : List α) : Prop :=
  ∃ before x after, hist = before ++ x :: after ∧ P x ∧ ∀ y ∈ after, ¬Q y

@[simp] theorem open_nil : ¬Open P Q [] := by
  rintro ⟨before, x, after, heq, -⟩
  simp at heq

theorem open_snoc : Open P Q (hist ++ [x]) ↔ P x ∨ (Open P Q hist ∧ ¬Q x) := by
  constructor
  · rintro ⟨before, y, after, heq, hy, hafter⟩
    rcases List.eq_nil_or_concat after with rfl | ⟨after', z, rfl⟩
    · obtain ⟨-, hx⟩ := List.append_inj' heq rfl
      exact .inl ((List.cons.inj hx).1 ▸ hy)
    · rw [List.concat_eq_append, ← List.cons_append, ← List.append_assoc] at heq
      obtain ⟨hhist, hx⟩ := List.append_inj' heq rfl
      rw [(List.cons.inj hx).1]
      refine .inr ⟨⟨before, y, after', hhist, hy, ?_⟩, hafter z (by simp)⟩
      intro w hw
      exact hafter w (by simp [hw])
  · rintro (hx | ⟨⟨before, y, after, rfl, hy, hafter⟩, hx⟩)
    · exact ⟨hist, x, [], rfl, hx, by simp⟩
    · refine ⟨before, y, after ++ [x], by simp, hy, ?_⟩
      intro w hw
      rcases List.mem_append.mp hw with hw | hw
      · exact hafter w hw
      · rwa [List.mem_singleton.mp hw]

theorem Open.mono (h : Open P Q hist) (hP : ∀ y, P y → P' y) (hQ : ∀ y, Q' y → Q y) :
    Open P' Q' hist := by
  obtain ⟨before, y, after, heq, hy, hafter⟩ := h
  refine ⟨before, y, after, heq, hP y hy, ?_⟩
  intro z hz hz'
  exact hafter z hz (hQ z hz')

theorem Open.exists_mem (h : Open P Q hist) : ∃ y ∈ hist, P y := by
  obtain ⟨before, y, after, rfl, hy, -⟩ := h
  exact ⟨y, by simp, hy⟩

end BloblyEmb.Trace
