import Mathlib.Data.List.FinRange
import Mathlib.Logic.Function.Basic
import Mathlib.Data.Nat.Notation
import Mathlib.Tactic.Common

/-!
# Loops over an array

A loop that visits every index of an array once, where the pass at an index changes that index
alone, maps the array. A byte string made of records of one length is read record by record.
-/
namespace BloblyEmb.Loop

universe u
variable {σ α : Type u} {n : ℕ}

/-- The rule of a loop whose pass at `i` turns the value at `i` from `a` to `g i a` and leaves the
others, under an invariant of the passes. -/
theorem foldl_apply_of (get : σ → Fin n → α) {f : σ → Fin n → σ} (g : Fin n → α → α)
    (inv : σ → Prop) (keep : ∀ s i, inv s → inv (f s i))
    (own : ∀ s i, inv s → get (f s i) i = g i (get s i))
    (other : ∀ s i j, j ≠ i → get (f s i) j = get s j) (l : List (Fin n)) (hl : l.Nodup)
    (s : σ) (hs : inv s) (i : Fin n) :
    get (l.foldl f s) i = if i ∈ l then g i (get s i) else get s i := by
  induction l generalizing s with
  | nil => rfl
  | cons k l ih =>
    obtain ⟨hk, hl⟩ := List.nodup_cons.mp hl
    rw [List.foldl_cons, ih hl (f s k) (keep s k hs)]
    by_cases hi : i = k
    · subst hi
      simp [hk, own s i hs]
    · simp [hi, other s k i hi]

theorem foldl_finRange_apply (get : σ → Fin n → α) {f : σ → Fin n → σ} (g : Fin n → α → α)
    (inv : σ → Prop) (keep : ∀ s i, inv s → inv (f s i))
    (own : ∀ s i, inv s → get (f s i) i = g i (get s i))
    (other : ∀ s i j, j ≠ i → get (f s i) j = get s j) (s : σ) (hs : inv s) (i : Fin n) :
    get ((List.finRange n).foldl f s) i = g i (get s i) := by
  rw [foldl_apply_of get g inv keep own other _ (List.nodup_finRange n) s hs]
  simp

/-- The rule of a loop over the indices in order: `P k` holds before the pass at `k`. -/
theorem foldl_finRange_induction {P : ℕ → σ → Prop} {f : σ → Fin n → σ} {s : σ} (h0 : P 0 s)
    (hstep : ∀ (k : Fin n) s, P k s → P (k + 1) (f s k)) : P n ((List.finRange n).foldl f s) := by
  induction n with
  | zero => exact h0
  | succ n ih =>
    rw [List.finRange_succ_last, List.foldl_append, List.foldl_map]
    exact hstep (Fin.last n) _ (ih fun k s h => hstep k.castSucc s h)

/-- The rule of a loop over the indices in order whose pass may fail: `P k` holds before the pass at
`k`, and under it the pass goes through. -/
theorem foldlM_finRange_induction {P : ℕ → σ → Prop} {f : σ → Fin n → Option σ} {s : σ} (h0 : P 0 s)
    (hstep : ∀ (k : Fin n) s, P k s → ∃ s', f s k = some s' ∧ P (k + 1) s') :
    ∃ s', (List.finRange n).foldlM f s = some s' ∧ P n s' := by
  induction n with
  | zero => exact ⟨s, rfl, h0⟩
  | succ n ih =>
    obtain ⟨s', hs', hP⟩ := ih (f := fun s k => f s k.castSucc) fun k s h => hstep k.castSucc s h
    rw [List.finRange_succ_last, List.foldlM_append, List.foldlM_map, hs']
    obtain ⟨s'', hs'', hP'⟩ := hstep (Fin.last n) s' hP
    exact ⟨s'', by simp [hs''], hP'⟩

/-- The rule of a loop over the first indices whose pass may fail. -/
theorem foldlM_range_induction {P : ℕ → σ → Prop} {f : σ → ℕ → Option σ} {s : σ} {n : ℕ}
    (h0 : P 0 s) (hstep : ∀ k < n, ∀ s, P k s → ∃ s', f s k = some s' ∧ P (k + 1) s') :
    ∃ s', (List.range n).foldlM f s = some s' ∧ P n s' := by
  induction n with
  | zero => exact ⟨s, rfl, h0⟩
  | succ n ih =>
    obtain ⟨s', hs', hP⟩ := ih fun k hk => hstep k (Nat.lt_succ_of_lt hk)
    obtain ⟨s'', hs'', hP'⟩ := hstep n (Nat.lt_succ_self n) s' hP
    exact ⟨s'', by simp [List.range_succ, List.foldlM_append, hs', hs''], hP'⟩

/-- A loop that computes and writes the value at each index computes the whole array. -/
theorem foldlM_finRange_update {g : Fin n → α} {f : Fin n → Option α} (h : ∀ i, f i = some (g i))
    (o : Fin n → α) : ((List.finRange n).foldlM (fun o i => do
      let x ← f i
      pure (Function.update o i x)) o) = some g := by
  have hstep : ∀ (k : Fin n) (r : Fin n → α), (∀ j : Fin n, (j : ℕ) < k → r j = g j) →
      ∃ r', (do
        let x ← f k
        pure (Function.update r k x)) = some r' ∧ ∀ j : Fin n, (j : ℕ) < k + 1 → r' j = g j := by
    intro k r hr
    refine ⟨Function.update r k (g k), by simp [h k], fun j hj => ?_⟩
    by_cases hjk : j = k
    · subst hjk
      simp
    · rw [Function.update_of_ne hjk]
      have hne : (j : ℕ) ≠ k := fun he => hjk (Fin.ext he)
      exact hr j (by omega)
  obtain ⟨r, hr, hP⟩ := foldlM_finRange_induction
    (P := fun k (r : Fin n → α) => ∀ j : Fin n, (j : ℕ) < k → r j = g j) (s := o)
    (fun j hj => absurd hj (Nat.not_lt_zero j)) hstep
  rw [hr]
  exact congrArg some (funext fun j => hP j j.isLt)

/-! ## Records -/

variable {β : Type u}

theorem length_flatMap_of {w : ℕ} {f : β → List α} (h : ∀ b, (f b).length = w) (l : List β) :
    (l.flatMap f).length = l.length * w := by
  induction l with
  | nil => simp
  | cons b l ih => simp [h, ih, Nat.succ_mul, Nat.add_comm]

/-- Byte `k` of record `i`. -/
theorem getElem?_flatMap {w : ℕ} {f : β → List α} (h : ∀ b, (f b).length = w) {l : List β} {i k : ℕ}
    (hk : k < w) : (l.flatMap f)[i * w + k]? = l[i]?.bind fun b => (f b)[k]? := by
  induction l generalizing i with
  | nil => simp
  | cons b l ih =>
    cases i with
    | zero => simp [List.getElem?_append_left, h, hk]
    | succ i =>
      rw [List.flatMap_cons, List.getElem?_append_right (by rw [h, Nat.succ_mul]; omega), h,
        show (i + 1) * w + k - w = i * w + k by rw [Nat.succ_mul]; omega, ih]
      simp

end BloblyEmb.Loop
