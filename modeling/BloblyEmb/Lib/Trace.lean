import Mathlib.Data.List.Induction
import Mathlib.Tactic.Common

/-!
# Runs of a machine

A machine is a step function on states that takes an event and answers with a label. A run
over a list of events leaves a state and a history, the list of entries `before`, `event`,
`label`, `after` in order. `run_induction` is the one induction over runs: what holds at the
start and is preserved by every step holds of every run. Its form with a condition carries a
restriction on the entries (no overflow, no torn word that passes a check) along.
-/
namespace BloblyEmb.Trace

universe u
variable {σ ε l : Type u}

/-- One step of a run. -/
structure Entry (σ ε l : Type u) where
  before : σ
  event : ε
  label : l
  after : σ

/-- The entry that the step on `e` from `s` adds. -/
def entry (step : σ → ε → σ × l) (s : σ) (e : ε) : Entry σ ε l :=
  ⟨s, e, (step s e).2, (step s e).1⟩

@[simp] theorem entry_before (step : σ → ε → σ × l) (s : σ) (e : ε) :
    (entry step s e).before = s := rfl
@[simp] theorem entry_event (step : σ → ε → σ × l) (s : σ) (e : ε) :
    (entry step s e).event = e := rfl
@[simp] theorem entry_label (step : σ → ε → σ × l) (s : σ) (e : ε) :
    (entry step s e).label = (step s e).2 := rfl
@[simp] theorem entry_after (step : σ → ε → σ × l) (s : σ) (e : ε) :
    (entry step s e).after = (step s e).1 := rfl

/-- The state and the history after a list of events. -/
def run (step : σ → ε → σ × l) (s : σ) (es : List ε) : σ × List (Entry σ ε l) :=
  es.foldl (fun acc e => ((step acc.1 e).1, acc.2 ++ [entry step acc.1 e])) (s, [])

/-- The state a run ends in. -/
def final (step : σ → ε → σ × l) (s : σ) (es : List ε) : σ := (run step s es).1

/-- The history of a run. -/
def history (step : σ → ε → σ × l) (s : σ) (es : List ε) : List (Entry σ ε l) := (run step s es).2

variable {step : σ → ε → σ × l} {s : σ}

@[simp] theorem final_nil : final step s [] = s := rfl
@[simp] theorem history_nil : history step s [] = [] := rfl

@[simp] theorem final_snoc (es : List ε) (e : ε) :
    final step s (es ++ [e]) = (step (final step s es) e).1 := by
  simp [final, run, List.foldl_append]

@[simp] theorem history_snoc (es : List ε) (e : ε) :
    history step s (es ++ [e]) = history step s es ++ [entry step (final step s es) e] := by
  simp [history, final, run, List.foldl_append]

theorem final_append (es es' : List ε) :
    final step s (es ++ es') = final step (final step s es) es' := by
  induction es' using List.reverseRecOn with
  | nil => simp
  | append_singleton es' e ih => rw [← List.append_assoc, final_snoc, final_snoc, ih]

theorem final_cons (e : ε) (es : List ε) :
    final step s (e :: es) = final step (step s e).1 es :=
  final_append [e] es

/-- Induction along a run, with a condition that every entry meets. -/
theorem run_induction_of (cond : Entry σ ε l → Prop) (P : σ → List (Entry σ ε l) → Prop)
    (h0 : P s [])
    (hstep : ∀ es e, P (final step s es) (history step s es) →
      cond (entry step (final step s es) e) →
      P (step (final step s es) e).1
        (history step s es ++ [entry step (final step s es) e]))
    (es : List ε) (hc : ∀ x ∈ history step s es, cond x) :
    P (final step s es) (history step s es) := by
  induction es using List.reverseRecOn with
  | nil => exact h0
  | append_singleton es e ih =>
    rw [history_snoc] at hc
    have hP := ih fun x hx => hc x (List.mem_append_left _ hx)
    simpa using hstep es e hP (hc _ (List.mem_append_right _ (List.mem_singleton_self _)))

/-- Induction along a run. -/
theorem run_induction (P : σ → List (Entry σ ε l) → Prop) (h0 : P s [])
    (hstep : ∀ es e, P (final step s es) (history step s es) →
      P (step (final step s es) e).1
        (history step s es ++ [entry step (final step s es) e]))
    (es : List ε) : P (final step s es) (history step s es) :=
  run_induction_of (fun _ => True) P h0 (fun es e h _ => hstep es e h) es fun _ _ => trivial

/-- An invariant of the states alone. -/
theorem final_invariant (P : σ → Prop) (h0 : P s) (hstep : ∀ s e, P s → P (step s e).1)
    (es : List ε) : P (final step s es) :=
  run_induction (fun s _ => P s) h0 (fun _ e h => hstep _ e h) es

/-- Each entry of a history starts in a state that a shorter run reaches. -/
theorem mem_history {es : List ε} {x : Entry σ ε l} (hx : x ∈ history step s es) :
    ∃ es₁ e es₂, es = es₁ ++ e :: es₂ ∧ x = entry step (final step s es₁) e := by
  induction es using List.reverseRecOn with
  | nil => simp at hx
  | append_singleton es e ih =>
    rw [history_snoc, List.mem_append, List.mem_singleton] at hx
    rcases hx with hx | rfl
    · obtain ⟨es₁, e', es₂, rfl, rfl⟩ := ih hx
      exact ⟨es₁, e', es₂ ++ [e], by simp, rfl⟩
    · exact ⟨es, e, [], rfl, rfl⟩

/-- What a history holds up to an entry is the history of a shorter run, and the entry is its
next step. -/
theorem history_split {es : List ε} {before after : List (Entry σ ε l)} {x : Entry σ ε l}
    (h : history step s es = before ++ x :: after) :
    ∃ es₁ e, history step s es₁ = before ∧ x = entry step (final step s es₁) e := by
  induction es using List.reverseRecOn generalizing after with
  | nil => simp at h
  | append_singleton es e ih =>
    rw [history_snoc] at h
    rcases List.eq_nil_or_concat after with rfl | ⟨after', y, rfl⟩
    · obtain ⟨hbefore, hx⟩ := List.append_inj' h rfl
      exact ⟨es, e, hbefore, (List.cons.inj hx).1.symm⟩
    · rw [List.concat_eq_append, ← List.cons_append, ← List.append_assoc] at h
      exact ih (List.append_inj' h rfl).1

/-! ## Entries and what came before them -/

/-- `P` holds of each entry of a history and the entries before it. -/
def Along {α : Type u} (P : List α → α → Prop) (hist : List α) : Prop :=
  ∀ h₁ x h₂, hist = h₁ ++ x :: h₂ → P h₁ x

theorem Along.nil {α : Type u} (P : List α → α → Prop) : Along P [] := by
  intro h₁ x h₂ h
  simp at h

theorem along_snoc {α : Type u} {P : List α → α → Prop} {hist : List α} {x : α} :
    Along P (hist ++ [x]) ↔ Along P hist ∧ P hist x := by
  constructor
  · intro h
    exact ⟨fun h₁ y h₂ hy => h h₁ y (h₂ ++ [x]) (by simp [hy]), h hist x [] rfl⟩
  · rintro ⟨h, hx⟩ h₁ y h₂ heq
    rcases List.eq_nil_or_concat h₂ with rfl | ⟨h₂', z, rfl⟩
    · obtain ⟨rfl, hy⟩ := List.append_inj' heq rfl
      exact (List.cons.inj hy).1 ▸ hx
    · rw [List.concat_eq_append, ← List.cons_append, ← List.append_assoc] at heq
      exact h h₁ y h₂' (List.append_inj' heq rfl).1

/-- What holds of every entry, whatever came before it. -/
theorem along_of_forall {α : Type u} {P : List α → α → Prop} {hist : List α}
    (h : ∀ x ∈ hist, ∀ before, P before x) : Along P hist := by
  rintro before x after rfl
  exact h x (by simp) before

/-- On a history at hand, place by place. -/
theorem along_of_get {α : Type u} {P : List α → α → Prop} {hist : List α}
    (h : ∀ i : Fin hist.length, P (hist.take i) (hist.get i)) : Along P hist := by
  rintro h₁ x h₂ rfl
  have hi := h ⟨h₁.length, by simp⟩
  simpa using hi

/-- `P` held at some entry of a history, and `Q` from that entry on. -/
def Since {α : Type u} (Q P : α → Prop) (hist : List α) : Prop :=
  ∃ h₁ x h₂, hist = h₁ ++ x :: h₂ ∧ P x ∧ ∀ y ∈ x :: h₂, Q y

theorem Since.now {α : Type u} {Q P : α → Prop} {x : α} (hist : List α) (hP : P x) (hQ : Q x) :
    Since Q P (hist ++ [x]) :=
  ⟨hist, x, [], rfl, hP, by simpa using hQ⟩

theorem Since.snoc {α : Type u} {Q P : α → Prop} {hist : List α} {x : α} (h : Since Q P hist)
    (hQ : Q x) : Since Q P (hist ++ [x]) := by
  obtain ⟨h₁, y, h₂, rfl, hy, hall⟩ := h
  refine ⟨h₁, y, h₂ ++ [x], by simp, hy, ?_⟩
  intro z hz
  rw [← List.cons_append, List.mem_append, List.mem_singleton] at hz
  rcases hz with hz | rfl
  · exact hall z hz
  · exact hQ

theorem Since.imp {α : Type u} {Q Q' P : α → Prop} {hist : List α} (h : Since Q P hist)
    (himp : ∀ x, Q x → Q' x) : Since Q' P hist := by
  obtain ⟨h₁, x, h₂, heq, hx, hall⟩ := h
  exact ⟨h₁, x, h₂, heq, hx, fun y hy => himp y (hall y hy)⟩

/-- Induction along a run: an invariant of state and history that each step preserves while it
meets a condition, and what each such step establishes. -/
theorem run_along {I : σ → List (Entry σ ε l) → Prop}
    {C P : List (Entry σ ε l) → Entry σ ε l → Prop} (h0 : I s [])
    (hstep : ∀ es e, I (final step s es) (history step s es) →
      C (history step s es) (entry step (final step s es) e) →
      I (step (final step s es) e).1 (history step s es ++ [entry step (final step s es) e]) ∧
        P (history step s es) (entry step (final step s es) e))
    (es : List ε) (hc : Along C (history step s es)) :
    I (final step s es) (history step s es) ∧ Along P (history step s es) := by
  induction es using List.reverseRecOn with
  | nil => exact ⟨h0, .nil P⟩
  | append_singleton es e ih =>
    rw [history_snoc, along_snoc] at hc
    obtain ⟨hI, hP⟩ := ih hc.1
    obtain ⟨hI', hx⟩ := hstep es e hI hc.2
    rw [final_snoc, history_snoc]
    exact ⟨hI', along_snoc.mpr ⟨hP, hx⟩⟩

end BloblyEmb.Trace
