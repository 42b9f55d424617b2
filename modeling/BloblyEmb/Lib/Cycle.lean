import Mathlib.Data.Finset.Card
import Mathlib.Data.Finset.Filter
import Mathlib.Logic.Function.Basic
import Mathlib.Logic.Relation
import Mathlib.Tactic.Common

/-!
# Cycles by depth-first search

A search that colours the nodes of a graph: a node is visited while those behind it are searched, and
done after that. It meets a visited node again exactly when the graph has a cycle. `visit_spec` is
what one visit does; the fuel that a search needs is the number of nodes that it has not seen.
-/
namespace BloblyEmb.Graph

universe u
variable {α : Type u}

inductive Colour where
  | unvisited
  | visiting
  | done
deriving DecidableEq

/-- The nodes that a node leads to, in order. -/
def scan (visit : α → (α → Colour) → Option (Bool × (α → Colour))) :
    List α → (α → Colour) → Option (Bool × (α → Colour))
  | [], st => some (false, st)
  | m :: ms, st =>
    match st m with
    | .visiting => some (true, st)
    | .unvisited =>
      match visit m st with
      | some (false, st') => scan visit ms st'
      | r => r
    | .done => scan visit ms st

def visit [DecidableEq α] (adj : α → List α) : ℕ → α → (α → Colour) → Option (Bool × (α → Colour))
  | 0, _, _ => none
  | fuel + 1, n, st =>
    match scan (visit adj fuel) (adj n) (Function.update st n .visiting) with
    | some (false, st') => some (false, Function.update st' n .done)
    | r => r

/-- The search starts from each node that it has not seen. -/
def search [DecidableEq α] (adj : α → List α) (fuel : ℕ) : List α → (α → Colour) → Option Bool
  | [], _ => some false
  | n :: ns, st =>
    match st n with
    | .unvisited =>
      match visit adj fuel n st with
      | some (false, st') => search adj fuel ns st'
      | some (true, _) => some true
      | none => none
    | _ => search adj fuel ns st

variable {adj : α → List α} {V : Finset α} {st st' : α → Colour}

/-- One node leads to another. -/
def Edge (adj : α → List α) (x y : α) : Prop := y ∈ adj x

def Cyclic (adj : α → List α) : Prop := ∃ x, Relation.TransGen (Edge adj) x x

/-- The nodes that are done lead to such nodes only, and lie on no cycle. -/
structure Sound (adj : α → List α) (st : α → Colour) : Prop where
  closed : ∀ x, st x = .done → ∀ y ∈ adj x, st y = .done
  acyclic : ∀ x, st x = .done → ¬Relation.TransGen (Edge adj) x x

/-- A search that goes on leaves what was done, and visits what was visited. -/
structure Grows (st st' : α → Colour) : Prop where
  done : ∀ x, st x = .done → st' x = .done
  visiting : ∀ x, st' x = .visiting ↔ st x = .visiting

theorem Grows.refl (st : α → Colour) : Grows st st := ⟨fun _ => id, fun _ => Iff.rfl⟩

theorem Grows.trans {st'' : α → Colour} (h : Grows st st') (h' : Grows st' st'') :
    Grows st st'' :=
  ⟨fun x hx => h'.done x (h.done x hx), fun x => (h'.visiting x).trans (h.visiting x)⟩

/-- The nodes that have not been seen. -/
def fresh (V : Finset α) (st : α → Colour) : Finset α := V.filter fun x => st x = .unvisited

theorem Grows.fresh (h : Grows st st') : fresh V st' ⊆ fresh V st := by
  intro x hx
  simp only [Graph.fresh, Finset.mem_filter] at hx ⊢
  refine ⟨hx.1, ?_⟩
  cases hc : st x with
  | unvisited => rfl
  | visiting => simp [(h.visiting x).mpr hc] at hx
  | done => simp [h.done x hc] at hx

/-- From nodes that are done only such nodes are reached. -/
theorem Sound.reach (h : Sound adj st) {x y : α} (hx : st x = .done)
    (hxy : Relation.ReflTransGen (Edge adj) x y) : st y = .done := by
  induction hxy with
  | refl => exact hx
  | tail _ hedge ih => exact h.closed _ ih _ hedge

variable [DecidableEq α]

theorem fresh_visiting {n : α} (hn : n ∈ V) (hst : st n = .unvisited) :
    (fresh V (Function.update st n .visiting)).card < (fresh V st).card := by
  apply Finset.card_lt_card
  rw [Finset.ssubset_iff_of_subset]
  · refine ⟨n, by simp [fresh, hn, hst], by simp [fresh]⟩
  · intro x hx
    simp only [fresh, Finset.mem_filter, Function.update_apply] at hx ⊢
    refine ⟨hx.1, ?_⟩
    by_cases hxn : x = n
    · simp [hxn] at hx
    · simpa [hxn] using hx.2

/-- A node all of whose successors are done is done. -/
theorem Sound.finish (h : Sound adj st) {n : α} (hn : st n ≠ .done)
    (hall : ∀ y ∈ adj n, st y = .done) : Sound adj (Function.update st n .done) := by
  have hdone : ∀ y, st y = .done → Function.update st n .done y = .done := by
    intro y hy
    by_cases hyn : y = n
    · simp [hyn]
    · simpa [hyn] using hy
  constructor
  case closed =>
    intro x hx y hy
    by_cases hxn : x = n
    · subst hxn
      exact hdone y (hall y hy)
    · exact hdone y (h.closed x (by simpa [hxn] using hx) y hy)
  case acyclic =>
    intro x hx hcycle
    by_cases hxn : x = n
    · subst hxn
      obtain ⟨y, hxy, hyx⟩ := Relation.TransGen.head'_iff.mp hcycle
      exact hn (h.reach (hall y hxy) hyx)
    · exact h.acyclic x (by simpa [hxn] using hx) hcycle

/-- What a visit promises of a node that has not been seen, when those that are visited lead to it. -/
def Visits (adj : α → List α) (V : Finset α) (fuel : ℕ) : Prop :=
  ∀ n st, n ∈ V → st n = .unvisited → Sound adj st → (fresh V st).card ≤ fuel →
    (∀ g, st g = .visiting → Relation.ReflTransGen (Edge adj) g n) →
    ∃ b st', visit adj fuel n st = some (b, st') ∧ (b = true → Cyclic adj) ∧
      (b = false → Sound adj st' ∧ Grows st st' ∧ st' n = .done)

theorem scan_spec {fuel : ℕ} (hv : Visits adj V fuel) {n : α} (ms : List α)
    (hms : ∀ m ∈ ms, m ∈ V ∧ m ∈ adj n) (hs : Sound adj st) (hcard : (fresh V st).card ≤ fuel)
    (hreach : ∀ g, st g = .visiting → Relation.ReflTransGen (Edge adj) g n) :
    ∃ b st', scan (visit adj fuel) ms st = some (b, st') ∧ (b = true → Cyclic adj) ∧
      (b = false → Sound adj st' ∧ Grows st st' ∧ ∀ m ∈ ms, st' m = .done) := by
  induction ms generalizing st with
  | nil => exact ⟨false, st, rfl, by simp, fun _ => ⟨hs, Grows.refl st, by simp⟩⟩
  | cons m ms ih =>
    obtain ⟨hmV, hmn⟩ := hms m List.mem_cons_self
    have hrest : ∀ m' ∈ ms, m' ∈ V ∧ m' ∈ adj n := fun m' hm' => hms m' (List.mem_cons_of_mem _ hm')
    cases hm : st m with
    | visiting =>
      refine ⟨true, st, by simp [scan, hm], fun _ => ?_, by simp⟩
      exact ⟨m, Relation.TransGen.tail' (hreach m hm) hmn⟩
    | done =>
      obtain ⟨b, st', hscan, htrue, hfalse⟩ := ih hrest hs hcard hreach
      refine ⟨b, st', by simp [scan, hm, hscan], htrue, ?_⟩
      intro hb
      obtain ⟨hs', hg, hall⟩ := hfalse hb
      exact ⟨hs', hg, by simpa using ⟨hg.done m hm, hall⟩⟩
    | unvisited =>
      obtain ⟨b, st₁, hvisit, htrue, hfalse⟩ := hv m st hmV hm hs hcard fun g hg =>
        (hreach g hg).tail hmn
      cases b with
      | true => exact ⟨true, st₁, by simp [scan, hm, hvisit], htrue, by simp⟩
      | false =>
        obtain ⟨hs₁, hg₁, hdone⟩ := hfalse rfl
        have hcard₁ := Nat.le_trans (Finset.card_le_card hg₁.fresh) hcard
        obtain ⟨b, st', hscan, htrue', hfalse'⟩ := ih hrest hs₁ hcard₁ fun g hg =>
          hreach g ((hg₁.visiting g).mp hg)
        refine ⟨b, st', by simp [scan, hm, hvisit, hscan], htrue', ?_⟩
        intro hb
        obtain ⟨hs', hg', hall⟩ := hfalse' hb
        exact ⟨hs', hg₁.trans hg', by simpa using ⟨hg'.done m hdone, hall⟩⟩

/-- One visit: by induction on the nodes that have not been seen. -/
theorem visit_spec (hV : ∀ x ∈ V, ∀ y ∈ adj x, y ∈ V) (fuel : ℕ) : Visits adj V fuel := by
  induction fuel with
  | zero =>
    intro n st hn hst _ hcard
    have hmem : n ∈ fresh V st := by simp [fresh, hn, hst]
    rw [Finset.card_eq_zero.mp (Nat.le_zero.mp hcard)] at hmem
    exact absurd hmem (Finset.notMem_empty n)
  | succ fuel ih =>
    intro n st hn hst hs hcard hreach
    have hother : ∀ x, x ≠ n → Function.update st n .visiting x = st x := by
      intro x hx
      exact Function.update_of_ne hx _ _
    have hsound : Sound adj (Function.update st n .visiting) := by
      have hne : ∀ x, Function.update st n .visiting x = .done → x ≠ n ∧ st x = .done := by
        intro x hx
        by_cases hxn : x = n
        · simp [hxn] at hx
        · exact ⟨hxn, hother x hxn ▸ hx⟩
      constructor
      case closed =>
        intro x hx y hy
        have hdone := hs.closed x (hne x hx).2 y hy
        rw [hother y (by rintro rfl; simp [hst] at hdone), hdone]
      case acyclic => exact fun x hx => hs.acyclic x (hne x hx).2
    have hreach' : ∀ g, Function.update st n .visiting g = .visiting →
        Relation.ReflTransGen (Edge adj) g n := by
      intro g hg
      by_cases hgn : g = n
      · rw [hgn]
      · exact hreach g (hother g hgn ▸ hg)
    have hless := fresh_visiting hn hst
    obtain ⟨b, st', hscan, htrue, hfalse⟩ := scan_spec ih (adj n)
      (fun m hm => ⟨hV n hn m hm, hm⟩) hsound (by omega) hreach'
    cases b with
    | true => exact ⟨true, st', by simp [visit, hscan], htrue, by simp⟩
    | false =>
      obtain ⟨hs', hg, hall⟩ := hfalse rfl
      refine ⟨false, Function.update st' n .done, by simp [visit, hscan], by simp, fun _ => ?_⟩
      have hself : st' n = .visiting := (hg.visiting n).mpr (by simp)
      refine ⟨hs'.finish (by simp [hself]) hall, ⟨?_, ?_⟩, by simp⟩
      · intro x hx
        by_cases hxn : x = n
        · simp [hxn]
        · rw [Function.update_of_ne hxn]
          exact hg.done x ((hother x hxn).trans hx)
      · intro x
        by_cases hxn : x = n
        · simp [hxn, hst]
        · rw [Function.update_of_ne hxn, hg.visiting x, hother x hxn]

/-- The search ends, and says whether a node that it starts from leads to a cycle. -/
theorem search_spec (hV : ∀ x ∈ V, ∀ y ∈ adj x, y ∈ V) {fuel : ℕ} (ns : List α)
    (hns : ∀ n ∈ ns, n ∈ V) (hs : Sound adj st) (hcard : (fresh V st).card ≤ fuel)
    (hnone : ∀ x, st x ≠ .visiting) :
    ∃ b, search adj fuel ns st = some b ∧ (b = true → Cyclic adj) ∧
      (b = false → ∀ n ∈ ns, ¬Relation.TransGen (Edge adj) n n) := by
  induction ns generalizing st with
  | nil => exact ⟨false, rfl, by simp, by simp⟩
  | cons n ns ih =>
    have hrest : ∀ m ∈ ns, m ∈ V := fun m hm => hns m (List.mem_cons_of_mem _ hm)
    cases hn : st n with
    | visiting => exact absurd hn (hnone n)
    | done =>
      obtain ⟨b, hsearch, htrue, hfalse⟩ := ih hrest hs hcard hnone
      refine ⟨b, by simp [search, hn, hsearch], htrue, ?_⟩
      intro hb
      simpa using ⟨hs.acyclic n hn, hfalse hb⟩
    | unvisited =>
      obtain ⟨b, st₁, hvisit, htrue, hfalse⟩ := visit_spec hV fuel n st (hns n List.mem_cons_self) hn
        hs hcard fun g hg => absurd hg (hnone g)
      cases b with
      | true => exact ⟨true, by simp [search, hn, hvisit], htrue, by simp⟩
      | false =>
        obtain ⟨hs₁, hg₁, hdone⟩ := hfalse rfl
        have hcard₁ := Nat.le_trans (Finset.card_le_card hg₁.fresh) hcard
        obtain ⟨b, hsearch, htrue', hfalse'⟩ := ih hrest hs₁ hcard₁ fun x hx =>
          hnone x ((hg₁.visiting x).mp hx)
        refine ⟨b, by simp [search, hn, hvisit, hsearch], htrue', ?_⟩
        intro hb
        simpa using ⟨hs₁.acyclic n hdone, hfalse' hb⟩

/-- With no node seen, and all nodes searched: the search says whether the graph has a cycle. -/
theorem search_eq (hV : ∀ x ∈ V, ∀ y ∈ adj x, y ∈ V) {fuel : ℕ} (ns : List α)
    (hns : ∀ n, n ∈ ns ↔ n ∈ V) (hedge : ∀ x, x ∉ V → adj x = []) (hfuel : V.card ≤ fuel) :
    ∃ b, search adj fuel ns (fun _ => .unvisited) = some b ∧ (b = true ↔ Cyclic adj) := by
  have hcard : (fresh V fun _ => .unvisited).card ≤ fuel :=
    Nat.le_trans (Finset.card_filter_le _ _) hfuel
  obtain ⟨b, hsearch, htrue, hfalse⟩ := search_spec hV ns (fun n hn => (hns n).mp hn)
    ⟨by simp, by simp⟩ hcard (by simp)
  refine ⟨b, hsearch, htrue, ?_⟩
  rintro ⟨x, hx⟩
  by_contra hb
  have hxV : x ∈ V := by
    by_contra hnot
    obtain ⟨y, hxy, -⟩ := Relation.TransGen.head'_iff.mp hx
    simp [Edge, hedge x hnot] at hxy
  exact hfalse (by simpa using hb) x ((hns x).mpr hxV) hx

end BloblyEmb.Graph
