import Mathlib.Data.List.Basic
import Mathlib.Tactic.Common

/-!
# The first entry with a key

Tables are lists that are searched for the first entry with a key, and changed there.
-/
namespace BloblyEmb

universe u v
variable {α : Type u} {κ : Type v} [DecidableEq κ] {f : α → κ} {k : κ} {g : α → α}

/-- The list with its first entry for `k` changed by `g`. -/
def changeKey (f : α → κ) (k : κ) (g : α → α) (l : List α) : List α :=
  l.replaceF fun a => if f a = k then some (g a) else none

theorem changeKey_cons (a : α) (l : List α) : changeKey f k g (a :: l) =
    if f a = k then g a :: l else a :: changeKey f k g l := by
  simp only [changeKey, List.replaceF_cons]
  split <;> simp_all

/-- The entry with the key is found changed. -/
theorem find_changeKey (hg : ∀ a, f a = k → f (g a) = k) (l : List α) :
    (changeKey f k g l).find? (f · == k) = (l.find? (f · == k)).map g := by
  induction l with
  | nil => rfl
  | cons a l ih =>
    rw [changeKey_cons]
    by_cases ha : f a = k
    · simp [ha, hg a ha]
    · simp [ha, ih]

/-- The others are not. -/
theorem find_changeKey_ne (hg : ∀ a, f a = k → f (g a) = k) {k' : κ} (hne : k' ≠ k)
    (l : List α) : (changeKey f k g l).find? (f · == k') = l.find? (f · == k') := by
  induction l with
  | nil => rfl
  | cons a l ih =>
    rw [changeKey_cons]
    by_cases ha : f a = k
    · simp [ha, hg a ha, hne.symm]
    · simp [ha, ih, List.find?_cons]

theorem mem_changeKey {l : List α} (hl : l.Pairwise fun a b => f a ≠ f b) {a : α}
    (ha : a ∈ changeKey f k g l) : (∃ b ∈ l, f b = k ∧ a = g b) ∨ a ∈ l ∧ f a ≠ k := by
  induction l with
  | nil => simp [changeKey] at ha
  | cons b l ih =>
    rw [List.pairwise_cons] at hl
    rw [changeKey_cons] at ha
    by_cases hb : f b = k
    · rw [if_pos hb, List.mem_cons] at ha
      rcases ha with rfl | ha
      · exact .inl ⟨b, by simp, hb, rfl⟩
      · exact .inr ⟨by simp [ha], fun hk => hl.1 a ha (hb.trans hk.symm)⟩
    · rw [if_neg hb, List.mem_cons] at ha
      rcases ha with rfl | ha
      · exact .inr ⟨by simp, hb⟩
      · rcases ih hl.2 ha with ⟨c, hc, hk, rfl⟩ | ⟨hm, hk⟩
        · exact .inl ⟨c, by simp [hc], hk, rfl⟩
        · exact .inr ⟨by simp [hm], hk⟩

/-- What the change leaves alone. -/
theorem map_changeKey {β : Type*} {m : α → β} {l : List α}
    (hm : ∀ a, l.find? (f · == k) = some a → m (g a) = m a) :
    (changeKey f k g l).map m = l.map m := by
  induction l with
  | nil => rfl
  | cons a l ih =>
    rw [changeKey_cons]
    by_cases ha : f a = k
    · simp [ha, hm a (by simp [ha])]
    · have hrest := ih fun b hb => hm b (by simp [ha, hb])
      simp [ha, hrest]

/-- What is found is in the list, and has the key; with one key each, it is the entry for it. -/
theorem find_key_spec {l : List α} {a : α} (h : l.find? (f · == k) = some a) :
    a ∈ l ∧ f a = k :=
  ⟨List.mem_of_find?_eq_some h, by simpa using List.find?_some h⟩

end BloblyEmb
