import BloblyEmb.Fault.Aging
import BloblyEmb.Fault.Ledger

/-!
# Entries and slots name each other

An entry belongs to a slot exactly when the slot names it, and every entry lies within the
configured capacity, in every state of a unit over any number of lives with any configurations.
While this holds, dropping entries until they fit a smaller capacity comes to an end.
-/
namespace BloblyEmb.Fault
namespace Memory
variable {n : ℕ} {m m' : Memory n}

/-- An entry belongs to a slot exactly when the slot names it. -/
def Indexed (m : Memory n) : Prop :=
  ∀ i k, (m.slots i).entry = some k ↔ ∃ e, m.entries k = some e ∧ e.slot = i

/-- Every entry lies within the capacity. -/
def Within (m : Memory n) : Prop := ∀ k e, m.entries k = some e → k.val < m.cap

theorem Indexed.of_eq (h : Indexed m) (hs : ∀ i, (m'.slots i).entry = (m.slots i).entry)
    (he : m'.entries = m.entries) : Indexed m' := by
  intro i k
  rw [hs, he]
  exact h i k

theorem Within.of_eq (h : Within m) (he : m'.entries = m.entries) (hc : m'.cap = m.cap) :
    Within m' := by
  intro k e hk
  rw [he] at hk
  rw [hc]
  exact h k e hk

/-- Two places do not hold entries of one slot. -/
theorem Indexed.inj (h : Indexed m) {k k' : Fin maxEntries} {e e' : Entry n}
    (he : m.entries k = some e) (he' : m.entries k' = some e') (hs : e.slot = e'.slot) : k = k' := by
  have h1 := (h e.slot k).mpr ⟨e, he, rfl⟩
  have h2 := (h e.slot k').mpr ⟨e', he', hs.symm⟩
  rw [h1] at h2
  exact Option.some.inj h2

/-! ## Releasing and taking -/

/-- Dropping a slot's entry leaves the entries of the others. -/
theorem Indexed.entries_freeEntry (h : Indexed m) (i : Fin n) (k : Fin maxEntries) (e : Entry n) :
    (m.freeEntry i).entries k = some e ↔ m.entries k = some e ∧ e.slot ≠ i := by
  simp only [freeEntry]
  split
  · rename_i k' hk'
    obtain ⟨e', he', hs'⟩ := (h i k').mp hk'
    rw [entries_setSlot, entries_setEntry]
    split
    · rename_i hkk
      subst hkk
      refine ⟨fun he => (by cases he), ?_⟩
      rintro ⟨he, hne⟩
      rw [he] at he'
      cases he'
      exact absurd hs' hne
    · rename_i hkk
      exact ⟨fun he => ⟨he, fun hs => hkk (h.inj he he' (hs.trans hs'.symm))⟩, And.left⟩
  · rename_i hnone
    rw [entries_setSlot]
    refine ⟨fun he => ⟨he, fun hs => ?_⟩, And.left⟩
    have hk := (h i k).mpr ⟨e, he, hs⟩
    rw [hnone] at hk
    cases hk

theorem Indexed.freeEntry (h : Indexed m) (i : Fin n) : Indexed (m.freeEntry i) := by
  intro j k
  by_cases hj : j = i
  · subst hj
    rw [slots_freeEntry_self]
    refine ⟨fun hk => (by cases hk), ?_⟩
    rintro ⟨e, he, hs⟩
    exact absurd hs ((h.entries_freeEntry j k e).mp he).2
  · rw [slots_freeEntry_of_ne _ hj, h j k]
    constructor
    · rintro ⟨e, he, hs⟩
      exact ⟨e, (h.entries_freeEntry i k e).mpr ⟨he, fun hi => hj (hs.symm.trans hi)⟩, hs⟩
    · rintro ⟨e, he, hs⟩
      exact ⟨e, ((h.entries_freeEntry i k e).mp he).1, hs⟩

theorem Within.freeEntry (h : Within m) (i : Fin n) : Within (m.freeEntry i) := by
  intro k e he
  rw [cap_freeEntry]
  exact h k e (Memory.entries_freeEntry he)

/-- A new entry for a slot without one, in a place that is free. -/
theorem Indexed.add (h : Indexed m) {k : Fin maxEntries} {e : Entry n} (hk : m.entries k = none)
    (hi : (m.slots e.slot).entry = none) : Indexed ((m.setEntry k (some e)).setSlot e.slot
      { m.slots e.slot with entry := some k }) := by
  intro j k'
  rw [entries_setSlot, entries_setEntry]
  by_cases hj : j = e.slot
  · subst hj
    rw [slots_setSlot_self]
    by_cases hkk : k' = k
    · subst hkk
      simp
    · have hno : ¬∃ e', m.entries k' = some e' ∧ e'.slot = e.slot := by
        rw [← h e.slot k', hi]
        simp
      rw [if_neg hkk]
      simp [Ne.symm hkk, hno]
  · rw [slots_setSlot_of_ne _ hj, slots_setEntry, h j k']
    by_cases hkk : k' = k
    · subst hkk
      simp [hk, Ne.symm hj]
    · rw [if_neg hkk]

theorem Indexed.place (h : Indexed m) {i : Fin n} {k : Fin maxEntries} (hk : m.entries k = none)
    (hi : (m.slots i).entry = none) (took : Bool) : Indexed (m.place i k took) :=
  (h.add (e := ⟨i, m.nextStamp, false, if (m.slots i).claim = some .A then .B else .A, took, []⟩) hk
    hi).of_eq (fun _ => rfl) rfl

theorem Within.place (h : Within m) {i : Fin n} {k : Fin maxEntries} (hk : k.val < m.cap)
    (took : Bool) : Within (m.place i k took) := by
  intro k' e he
  change k'.val < m.cap
  simp only [Memory.place, entries_setSlot, entries_setEntry] at he
  split at he
  · rename_i hkk
    rw [hkk]
    exact hk
  · exact h k' e he

theorem slots_displaced {i : Fin n} {e : Entry n} (h : (m.slots i).entry = none) :
    ((m.freeEntry e.slot).slots i).entry = none := by
  by_cases hie : i = e.slot
  · rw [hie, slots_freeEntry_self]
  · rw [slots_freeEntry_of_ne _ hie]
    exact h

/-- `allocate`: a slot without an entry is given one within the capacity; what it displaces did not
fail in this cycle, is not active and confirmed and is not more important. -/
theorem allocate_spec {i : Fin n} {k : Fin maxEntries} (ha : m.allocate i = some (k, m')) :
    k.val < m.cap ∧ (∀ e, m.entries k = some e → ¬m.Protected i e) ∧
      ((m.slots i).entry = none → Indexed m → Indexed m') ∧ (Within m → Within m') := by
  simp only [allocate] at ha
  split at ha
  · rename_i k' hfind
    simp only [Option.some.injEq, Prod.mk.injEq] at ha
    obtain ⟨rfl, rfl⟩ := ha
    have hplace : k'.val < m.cap := by
      have hmem := List.mem_of_find?_eq_some hfind
      simp only [places, List.mem_filter] at hmem
      exact of_decide_eq_true hmem.2
    have hk : m.entries k' = none := by simpa using List.find?_some hfind
    refine ⟨hplace, fun e he => ?_, fun hi h => h.place hk hi false, fun h => h.place hplace false⟩
    rw [hk] at he
    cases he
  · split at ha
    · cases ha
    · rename_i k' e hv
      simp only [Option.some.injEq, Prod.mk.injEq] at ha
      obtain ⟨rfl, rfl⟩ := ha
      obtain ⟨hk, hplace, hfree⟩ := victim_spec hv
      refine ⟨hplace, fun e' he' => ?_, fun hi h => ?_, fun h => ?_⟩
      · rw [hk] at he'
        obtain rfl := Option.some.inj he'
        exact hfree
      · rw [place_displaced ((h e.slot k').mpr ⟨e, hk, rfl⟩)]
        have hgone : (m.freeEntry e.slot).entries k' = none := by
          cases hx : (m.freeEntry e.slot).entries k' with
          | none => rfl
          | some e' =>
            obtain ⟨he', hne⟩ := (h.entries_freeEntry e.slot k' e').mp hx
            rw [hk] at he'
            cases he'
            exact absurd rfl hne
        exact ((h.freeEntry e.slot).of_eq (fun _ => rfl) rfl).place hgone (slots_displaced hi) _
      · exact Within.place (m := { m.setSlot e.slot { m.slots e.slot with entry := none } with
          displaced := m.displaced + 1 }) (h.of_eq rfl rfl) hplace _

/-! ## The owner's operations -/

/-- Both at once. -/
structure Ordered (m : Memory n) : Prop where
  indexed : Indexed m
  within : Within m

theorem Ordered.of_eq (h : Ordered m) (hs : ∀ i, (m'.slots i).entry = (m.slots i).entry)
    (he : m'.entries = m.entries) (hc : m'.cap = m.cap) : Ordered m' :=
  ⟨h.indexed.of_eq hs he, h.within.of_eq he hc⟩

theorem Ordered.of_frames (h : Ordered m) (hs : ∀ i, SameFrame (m.slots i) (m'.slots i))
    (he : m'.entries = m.entries) (hc : m'.cap = m.cap) : Ordered m' :=
  h.of_eq (fun i => (hs i).entry) he hc

theorem Ordered.freeEntry (h : Ordered m) (i : Fin n) : Ordered (m.freeEntry i) :=
  ⟨h.indexed.freeEntry i, h.within.freeEntry i⟩

/-- Writing changes no entry but for whether it is written. -/
theorem Ordered.stores (h : Ordered m) (hs : Stores m m') : Ordered m' := by
  have hent : ∀ k e', m'.entries k = some e' → ∃ e, m.entries k = some e ∧ e.slot = e'.slot := by
    intro k e' he'
    have hmap := hs.entries k
    rw [he', Option.map_some] at hmap
    obtain ⟨e, he, hcontent⟩ := Option.map_eq_some_iff.mp hmap.symm
    exact ⟨e, he, congrArg Prod.fst hcontent⟩
  have hent' : ∀ k e, m.entries k = some e → ∃ e', m'.entries k = some e' ∧ e'.slot = e.slot := by
    intro k e he
    have hmap := hs.entries k
    rw [he, Option.map_some] at hmap
    obtain ⟨e', he', hcontent⟩ := Option.map_eq_some_iff.mp hmap
    exact ⟨e', he', congrArg Prod.fst hcontent⟩
  constructor
  · intro i k
    have hslot : (m'.slots i).entry = (m.slots i).entry := by rw [hs.slots i]
    rw [hslot, h.indexed i k]
    constructor
    · rintro ⟨e, he, rfl⟩
      exact hent' k e he
    · rintro ⟨e', he', rfl⟩
      exact hent k e' he'
  · intro k e' he'
    obtain ⟨e, he, -⟩ := hent k e' he'
    rw [hs.cap]
    exact h.within k e he

theorem Ordered.captureSlot (h : Ordered m) (dids : List (UInt16 × List UInt8)) (i : Fin n) :
    Ordered (captureSlot dids m i) := by
  simp only [Memory.captureSlot]
  split
  · exact h
  · have h₁ : Ordered (m.setSlot i { m.slots i with snapDue := false }) :=
      h.of_frames (sameFrame_setSlot (.of_eq rfl)) rfl rfl
    generalize m.setSlot i { m.slots i with snapDue := false } = m₁ at h₁
    split
    · exact h₁
    · rename_i hno
      simp only [not_or, not_not] at hno
      obtain ⟨-, hentry, -⟩ := hno
      split
      · exact h₁
      · rename_i k m₂ ha
        obtain ⟨-, -, hi, hw⟩ := allocate_spec ha
        have h₂ : Ordered m₂ := ⟨hi hentry h₁.indexed, hw h₁.within⟩
        -- the body of the new entry changes neither its slot nor its place
        have hset : ∀ k' e', (m₂.setEntry k ((m₂.entries k).map fun e =>
            { e with data := body dids (m₁.slots i) })).entries k' = some e' →
            ∃ e, m₂.entries k' = some e ∧ e.slot = e'.slot := by
          intro k' e' he'
          rw [entries_setEntry] at he'
          split at he'
          · rename_i hkk
            subst hkk
            obtain ⟨e, he, rfl⟩ := Option.map_eq_some_iff.mp he'
            exact ⟨e, he, rfl⟩
          · exact ⟨e', he', rfl⟩
        have hset' : ∀ k' e, m₂.entries k' = some e → ∃ e', (m₂.setEntry k ((m₂.entries k).map
            fun e => { e with data := body dids (m₁.slots i) })).entries k' = some e' ∧
              e'.slot = e.slot := by
          intro k' e he
          rw [entries_setEntry]
          split
          · rename_i hkk
            subst hkk
            exact ⟨{ e with data := body dids (m₁.slots i) }, by rw [he, Option.map_some], rfl⟩
          · exact ⟨e, he, rfl⟩
        constructor
        · intro j k'
          rw [slots_setEntry, h₂.indexed j k']
          constructor
          · rintro ⟨e, he, rfl⟩
            exact hset' k' e he
          · rintro ⟨e', he', rfl⟩
            exact hset k' e' he'
        · intro k' e' he'
          obtain ⟨e, he, -⟩ := hset k' e' he'
          exact h₂.within k' e he

theorem Ordered.capture (h : Ordered m) (dids : List (UInt16 × List UInt8)) :
    Ordered (m.capture dids) := by
  refine List.foldlRecOn (motive := fun m' => Ordered m') _ _ h ?_
  intro m' h' i _
  exact h'.captureSlot dids i

theorem Ordered.cycleEnd (h : Ordered m) : Ordered m.cycleEnd := by
  simp only [Memory.cycleEnd]
  split
  · exact h.of_eq (fun _ => rfl) rfl rfl
  · split
    · exact h.of_eq (fun _ => rfl) rfl rfl
    · refine List.foldlRecOn (motive := fun m' => Ordered m') _ _
        (h.of_eq (fun _ => rfl) rfl rfl) ?_
      intro m' h' i _
      have h₁ : Ordered (m'.setSlot i (endSlot (m'.slots i))) :=
        h'.of_frames (sameFrame_setSlot (.endSlot _)) rfl rfl
      simp only [cycleEndSlot]
      split
      · exact h₁.freeEntry i
      · exact h₁

theorem Ordered.cycleStart (h : Ordered m) : Ordered m.cycleStart := by
  let m₁ := if m.cycleActive then ({ m with ending := false } : Memory n).cycleEnd
    else { m with ending := false }
  have h₀ : Ordered { m with ending := false } := h.of_eq (fun _ => rfl) rfl rfl
  have h₁ : Ordered m₁ := by
    simp only [m₁]
    split
    · exact h₀.cycleEnd
    · exact h₀
  let m₂ := if m₁.settingOff then { m₁ with boundaryOff := true } else m₁
  have h₂ : Ordered m₂ := by
    simp only [m₂]
    split
    · exact h₁.of_eq (fun _ => rfl) rfl rfl
    · exact h₁
  have hlast : Ordered { m₂ with
      cycleActive := true
      slots := fun i => { m₂.slots i with
        status := if m₂.settingOff then (m₂.slots i).status else restartBits (m₂.slots i).status
        failedCycle := false
        testedCycle := false } } := h₂.of_eq (fun _ => rfl) rfl rfl
  exact hlast

theorem Ordered.clearNamed (h : Ordered m) (group : UInt32) : Ordered (m.clearNamed group) := by
  refine List.foldlRecOn (motive := fun m' => Ordered m') _ _ h ?_
  intro m' h' i _
  split
  · simp only [clearOne]
    have hfree : Ordered (if (m'.slots i).entry ≠ none then m'.freeEntry i else m') := by
      split
      · exact h'.freeEntry i
      · exact h'
    exact hfree.of_frames (sameFrame_setSlot (.of_eq rfl)) rfl rfl
  · exact h'

theorem Ordered.clear (h : Ordered m) (st : Store) (group : UInt32) :
    Ordered (m.clear st group).2.1 := by
  have hp : Ordered (m.persistClear st group).2.1 := h.stores (m.persistClear_stores st group)
  rcases m.clear_cases st group with ⟨-, heq⟩ | ⟨-, -, heq⟩ | ⟨-, -, -, heq⟩
  · rw [heq]
    exact h
  · rw [heq]
    exact hp
  · rw [heq]
    exact hp.clearNamed group

/-! ## The records of an image -/

/-- The memory after the first `R` records of an image. -/
structure Gathered (img : List UInt8) (m : Memory n) (R : ℕ) : Prop where
  indexed : Indexed m
  image : m.img = img
  distinct : m.Distinct
  entered : ∀ i, (m.slots i).entry ≠ none → ∃ r < R, recDtc img r = (m.slots i).dtc

/-- One record is read: its slot has no entry yet, since no record before was for its DTC. -/
theorem Gathered.record {img : List UInt8} {R : ℕ} (h : Gathered img m R) (st : Store)
    (hone : ∀ r < records img, ∀ r' < records img, recDtc img r = recDtc img r' → r = r')
    (hR : R < records img) : Gathered img (restoreRecord st m R) (R + 1) := by
  have hdtc : rdBe24 (recAt m.img R 0) (recAt m.img R 1) (recAt m.img R 2) = recDtc img R := by
    rw [h.image]
    rfl
  have hlater : ∀ i, (m.slots i).entry ≠ none → ∃ r < R + 1, recDtc img r = (m.slots i).dtc := by
    intro i hi
    obtain ⟨r, hr, hd⟩ := h.entered i hi
    exact ⟨r, by omega, hd⟩
  cases hi : m.slotOf (recDtc img R) with
  | none =>
    rw [restoreRecord_of_none (hdtc ▸ hi)]
    exact ⟨h.indexed, h.image, h.distinct, hlater⟩
  | some i =>
    have hci : (m.slots i).dtc = recDtc img R := slotOf_eq hi
    have hnone : (m.slots i).entry = none := by
      by_contra hno
      obtain ⟨r, hr, hd⟩ := h.entered i hno
      have := hone r (by omega) R hR (hd.trans hci)
      omega
    have ht : Indexed (m.takeRecord i R) :=
      h.indexed.of_eq (fun j => (m.takeRecord_slot i R j).2.1) rfl
    have hs := restoreRecord_of_some (m := m) (r := R) st (hdtc ▸ hi)
    have hconfig : ∀ j, ((restoreRecord st m R).slots j).dtc = (m.slots j).dtc := by
      intro j
      by_cases hj : j = i
      · subst hj
        rw [hs.own]
        rfl
      · rw [hs.other j hj]
    refine ⟨?_, hs.frame.img.trans h.image, fun j j' hjj => ?_, fun j hj => ?_⟩
    · rw [restoreRecord, hdtc, hi]
      dsimp only
      split
      · rename_i m₂ hload
        split at hload
        · cases hload
        · obtain ⟨b, -, hload⟩ := Option.bind_eq_some_iff.mp hload
          obtain ⟨k, stamp, data, next, hk, rfl⟩ := loadSnapshot_eq hload
          have hadd := ht.add (e := ⟨i, stamp, true, b, false, data⟩) hk
            ((m.takeRecord_slot i R i).2.1.trans hnone)
          refine hadd.of_eq (fun j => ?_) rfl
          by_cases hj : j = i
          · subst hj
            rw [slots_setSlot_self]
          · rw [slots_setSlot_of_ne _ hj]
      · split <;> exact ht
    · rw [hconfig, hconfig] at hjj
      exact h.distinct j j' hjj
    · rw [hconfig]
      by_cases hj' : j = i
      · subst hj'
        exact ⟨R, by omega, hci.symm⟩
      · rw [hs.other j hj'] at hj
        exact hlater j hj

/-! ## The capacity -/

/-- The entry that is dropped first is one of those in use. -/
theorem worst_mem {e : Entry n} (h : m.worst = some e) : ∃ k, m.entries k = some e := by
  have hfold : ∀ b ∈ m.worst, b ∈ m.usedEntries := by
    refine List.foldlRecOn (motive := fun w : Option (Entry n) => ∀ b ∈ w, b ∈ m.usedEntries) _ _
      (by simp) ?_
    intro w hw e' he'
    have hnew : ∀ b ∈ some e', b ∈ m.usedEntries := by
      intro b hb
      rw [← Option.mem_some.mp hb]
      exact he'
    split
    · exact hnew
    · split
      · exact hnew
      · exact hw
  obtain ⟨k, -, hk⟩ := List.mem_filterMap.mp (hfold e (Option.mem_def.mpr h))
  exact ⟨k, hk⟩

theorem worst_none (h : m.worst = none) : m.usedEntries = [] := by
  have hsome : ∀ (f : Option (Entry n) → Entry n → Option (Entry n)),
      (∀ w e, (f w e).isSome = true) → ∀ (l : List (Entry n)) (w : Option (Entry n)),
        w.isSome = true → (l.foldl f w).isSome = true := by
    intro f hf l
    induction l with
    | nil => exact fun w hw => hw
    | cons e l ih => exact fun w _ => ih _ (hf w e)
  cases hu : m.usedEntries with
  | nil => rfl
  | cons e l =>
    rw [worst, hu, List.foldl_cons] at h
    have hno := congrArg Option.isSome h
    rw [hsome _ (fun w e => ?_) l _ rfl] at hno
    · cases hno
    · split
      · rfl
      · split <;> rfl

/-- Releasing the entry of a slot that has one makes one entry fewer. -/
theorem Indexed.length_freeEntry (h : Indexed m) {k : Fin maxEntries} {e : Entry n}
    (hk : m.entries k = some e) :
    (m.freeEntry e.slot).usedEntries.length + 1 = m.usedEntries.length := by
  have hcount : ∀ m : Memory n, m.usedEntries.length =
      ((List.finRange maxEntries).filter fun k => (m.entries k).isSome).length := by
    intro m
    rw [usedEntries, List.length_filterMap_eq_countP, List.countP_eq_length_filter]
  have hsame : ∀ j, ((m.freeEntry e.slot).entries j).isSome =
      ((m.entries j).isSome && decide (j ≠ k)) := by
    intro j
    by_cases hj : j = k
    · subst hj
      have : (m.freeEntry e.slot).entries j = none := by
        cases hx : (m.freeEntry e.slot).entries j with
        | none => rfl
        | some e' =>
          obtain ⟨he', hne⟩ := (h.entries_freeEntry e.slot j e').mp hx
          rw [hk] at he'
          cases he'
          exact absurd rfl hne
      simp [this]
    · simp only [ne_eq, hj, not_false_eq_true, decide_true, Bool.and_true]
      cases hx : m.entries j with
      | none =>
        cases hy : (m.freeEntry e.slot).entries j with
        | none => rfl
        | some e' =>
          rw [((h.entries_freeEntry e.slot j e').mp hy).1] at hx
          cases hx
      | some e' =>
        exact congrArg Option.isSome
          ((h.entries_freeEntry e.slot j e').mpr ⟨hx, fun hs => hj (h.inj hx hk hs)⟩)
  rw [hcount, hcount, ← List.countP_eq_length_filter, ← List.countP_eq_length_filter]
  simp only [hsame]
  have hsplit := List.countP_eq_countP_filter_add (List.finRange maxEntries)
    (fun j => (m.entries j).isSome) fun j => decide (j ≠ k)
  rw [hsplit, List.countP_filter, List.countP_filter]
  have hone : List.countP (fun j => (m.entries j).isSome && !decide (j ≠ k))
      (List.finRange maxEntries) = 1 := by
    have hk1 : (List.finRange maxEntries).count k = 1 :=
      List.count_eq_one_of_mem (List.nodup_finRange _) (List.mem_finRange k)
    rw [← hk1, List.count]
    refine List.countP_congr fun j _ => ?_
    by_cases hj : j = k
    · subst hj
      simp [hk]
    · simp [hj]
  omega

/-- Dropping ends: as many passes as there are entries make them fit, and further ones do nothing. -/
theorem Indexed.dropEntries (h : Indexed m) {fuel : ℕ} (hf : m.usedEntries.length ≤ fuel) :
    Indexed (dropEntries fuel m) ∧ (dropEntries fuel m).usedEntries.length ≤ m.cap ∧
      ∀ more, Memory.dropEntries (fuel + more) m = Memory.dropEntries fuel m := by
  induction fuel generalizing m with
  | zero =>
    have hfit : m.usedEntries.length ≤ m.cap := by omega
    refine ⟨h, hfit, fun more => ?_⟩
    cases more with
    | zero => rfl
    | succ more =>
      simp only [Memory.dropEntries, if_pos hfit]
  | succ fuel ih =>
    rw [Memory.dropEntries]
    by_cases hfit : m.usedEntries.length ≤ m.cap
    · rw [if_pos hfit]
      refine ⟨h, hfit, fun more => ?_⟩
      rw [Nat.add_right_comm, Memory.dropEntries, if_pos hfit]
    · rw [if_neg hfit]
      cases hw : m.worst with
      | none =>
        rw [worst_none hw] at hfit
        exact absurd (Nat.zero_le _) hfit
      | some e =>
        obtain ⟨k, hk⟩ := worst_mem hw
        have hlen := h.length_freeEntry hk
        obtain ⟨h1, h2, h3⟩ := ih (h.freeEntry e.slot) (by omega)
        rw [cap_freeEntry] at h2
        refine ⟨h1, h2, fun more => ?_⟩
        rw [Nat.add_right_comm, Memory.dropEntries, if_neg hfit, hw]
        exact h3 more

theorem length_usedEntries (m : Memory n) : m.usedEntries.length ≤ maxEntries := by
  have := List.length_filterMap_le m.entries (List.finRange maxEntries)
  rwa [List.length_finRange] at this

/-- An entry moves to a free place. -/
theorem Indexed.move (h : Indexed m) {k k' : Fin maxEntries} {e : Entry n}
    (he : m.entries k = some e) (hk' : m.entries k' = none) :
    Indexed (((m.setEntry k' (some e)).setEntry k none).setSlot e.slot
      { m.slots e.slot with entry := some k' }) := by
  have hne : k' ≠ k := by
    rintro rfl
    rw [he] at hk'
    cases hk'
  have hk := (h e.slot k).mpr ⟨e, he, rfl⟩
  have hfree : m.freeEntry e.slot =
      (m.setEntry k none).setSlot e.slot { m.slots e.slot with entry := none } := by
    simp only [Memory.freeEntry, hk]
    rfl
  have hplace : (m.freeEntry e.slot).entries k' = none := by
    rw [hfree, entries_setSlot, entries_setEntry, if_neg hne]
    exact hk'
  have hadd := (h.freeEntry e.slot).add (e := e) hplace (by rw [slots_freeEntry_self])
  refine hadd.of_eq (fun i => ?_) ?_
  · rw [hfree]
    simp only [setSlot, setEntry, Function.update_self, Function.update_idem]
  · rw [hfree]
    simp only [setSlot, setEntry]
    exact Function.update_comm hne _ _ _

/-- Fitting packs what is left into the places of the capacity. -/
theorem Indexed.fitEntries (h : Indexed m) : Ordered m.fitEntries := by
  obtain ⟨hdrop, hfit, -⟩ := h.dropEntries m.length_usedEntries
  have hcap : m.fitEntries.cap = m.cap := by
    refine List.foldlRecOn (motive := fun x : Memory n × ℕ => x.1.cap = m.cap) _ _
      (m.cap_dropEntries maxEntries) ?_
    intro x hx k _
    exact (cap_packEntry x k).trans hx
  have hpack := Loop.foldl_finRange_induction (n := maxEntries) (f := packEntry)
    (P := fun k x => Indexed x.1 ∧
      (∀ j : Fin maxEntries, k ≤ j.val →
        x.1.entries j = (Memory.dropEntries maxEntries m).entries j) ∧
      x.2 = (((List.finRange maxEntries).take k).filterMap
        (Memory.dropEntries maxEntries m).entries).length ∧
      x.2 ≤ k ∧ ∀ j : Fin maxEntries, x.2 ≤ j.val → j.val < k → x.1.entries j = none)
    (s := (Memory.dropEntries maxEntries m, 0))
    ⟨hdrop, fun _ _ => rfl, rfl, le_rfl, fun j _ hj => by omega⟩ ?_
  · obtain ⟨h1, -, h3, -, h5⟩ := hpack
    refine ⟨h1, fun k e he => ?_⟩
    by_contra hno
    have hlen : ((List.finRange maxEntries).take maxEntries).filterMap
        (Memory.dropEntries maxEntries m).entries =
          (Memory.dropEntries maxEntries m).usedEntries := by
      rw [List.take_of_length_le (by rw [List.length_finRange]), usedEntries]
    rw [hlen] at h3
    have hfree := h5 k (by omega) k.isLt
    change m.fitEntries.entries k = none at hfree
    rw [he] at hfree
    cases hfree
  · rintro k ⟨m', next⟩ ⟨hm', hrest, hnext, hle, hfree⟩
    dsimp only at hm' hrest hnext hle hfree
    have hk := hrest k le_rfl
    have htake : (List.finRange maxEntries).take (k.val + 1) =
        (List.finRange maxEntries).take k.val ++ [k] := by
      rw [List.take_succ_eq_append_getElem (by rw [List.length_finRange]; exact k.isLt)]
      simp
    simp only [packEntry, htake, List.filterMap_append, List.length_append, List.filterMap_cons,
      List.filterMap_nil]
    split
    · rename_i he
      rw [hk] at he
      refine ⟨hm', fun j hj => hrest j (by omega), by simpa [he] using hnext, by omega,
        fun j hj hjk => ?_⟩
      rcases Nat.lt_succ_iff_lt_or_eq.mp hjk with hjk | hjk
      · exact hfree j hj hjk
      · rw [Fin.ext hjk, hk]
        exact he
    · rename_i e he
      have he' := hk.symm.trans he
      split
      · rename_i hlt
        split
        · rename_i hne
          have hlt' : next < k.val := by omega
          refine ⟨hm'.move he (hfree ⟨next, hlt⟩ le_rfl hlt'), fun j hj => ?_, by simp [he', hnext],
            by omega, fun j hj hjk => ?_⟩
          · dsimp only
            rw [entries_setSlot, entries_setEntry, if_neg (by rintro rfl; omega), entries_setEntry,
              if_neg (by rintro rfl; dsimp only at hj; omega)]
            exact hrest j (by omega)
          · dsimp only at hj ⊢
            rw [entries_setSlot, entries_setEntry]
            split
            · rfl
            · rename_i hjk'
              have hjv : j.val ≠ k.val := fun heq => hjk' (Fin.ext heq)
              rw [entries_setEntry, if_neg (by rintro rfl; dsimp only at hj; omega)]
              exact hfree j (by omega) (by omega)
        · rename_i heq
          exact ⟨hm', fun j hj => hrest j (by omega), by simp [he', hnext], by omega,
            fun j hj hjk => by omega⟩
      · rename_i hlt
        have := k.isLt
        omega

/-! ## A start -/

/-- The memory with every record of the image read, before its entries are fitted. -/
def gathered (m : Memory n) (st : Store) (img : List UInt8) : Memory n :=
  (List.range (records img)).foldl (restoreRecord st) { m.init.checkSlots with img := img }

/-- An image has one record for a DTC. -/
def OneEach (img : List UInt8) : Prop :=
  IsImage img → ∀ r < records img, ∀ r' < records img, recDtc img r = recDtc img r' → r = r'

theorem indexed_blank {m : Memory n} (hs : ∀ i, (m.slots i).entry = none)
    (he : ∀ k, m.entries k = none) : Ordered m := by
  refine ⟨fun i k => ?_, fun k e hk => ?_⟩
  · rw [hs, he]
    simp
  · rw [he] at hk
    cases hk

theorem ordered_init (m : Memory n) (img : List UInt8) :
    Ordered { m.init.checkSlots with img := img } :=
  indexed_blank (fun _ => entry_checkBlocks _) fun _ => rfl

theorem indexed_gathered (hd : m.Distinct) (st : Store) {img : List UInt8} (hi : IsImage img)
    (hone : OneEach img) : Indexed (m.gathered st img) := by
  have hstart : Gathered img { m.init.checkSlots with img := img } 0 := by
    refine ⟨(m.ordered_init img).indexed, rfl, fun i j hij => ?_, fun i hno => ?_⟩
    · simp only [checkSlots, dtc_checkBlocks] at hij
      exact hd i j hij
    · exact absurd (entry_checkBlocks _) hno
  have hall : ∀ R ≤ records img, Gathered img
      ((List.range R).foldl (restoreRecord st) { m.init.checkSlots with img := img }) R := by
    intro R hR
    induction R with
    | zero => exact hstart
    | succ R ih =>
      rw [List.range_succ, List.foldl_append]
      exact (ih (by omega)).record st (hone hi) (by omega)
  exact (hall (records img) le_rfl).indexed

theorem ordered_boot (hd : m.Distinct) (st : Store)
    (hone : ∀ seam, m.store = some seam → OneEach (storedImage st seam)) :
    Ordered (Node.boot m st).mem := by
  cases hs : m.store with
  | none =>
    rw [Node.boot_of_none hs]
    exact indexed_blank (fun _ => rfl) fun _ => rfl
  | some seam =>
    have hs' : m.init.store = some seam := hs
    have hone := hone seam hs
    change Ordered (m.init.restore st)
    rw [restore_eq hs']
    generalize storedImage st seam = img at hone ⊢
    have hread : Ordered (m.init.checkSlots.readImage st img) := by
      rw [readImage]
      split
      · rename_i hi
        exact (indexed_gathered hd st hi hone).fitEntries
      · exact m.ordered_init []
    generalize m.init.checkSlots.readImage st img = m₁ at hread ⊢
    have hlive : Ordered { m₁ with slots := m₁.liveBlocks st } :=
      hread.of_eq (fun i => (m₁.alike_liveBlocks st i).2) rfl rfl
    dsimp only
    split
    · have hopen : Ordered ({ m₁ with
          slots := m₁.liveBlocks st, cycleActive := true,
          settingOff := decide (Has (img.getD 1 0) imgSettingOff) } : Memory n) :=
        hlive.of_eq (fun _ => rfl) rfl rfl
      exact hopen.cycleEnd.of_eq (fun _ => rfl) rfl rfl
    · exact hlive

end Memory

/-! ## Every reachable state -/

namespace Node
variable {n : ℕ}
open Memory

/-- The memories that can come about around one store: a start of any configuration on a store that
holds no image or one with one record for a DTC, an operation of the owner, and an update to another
configuration that keeps its image in the same block. -/
inductive Reach (id : UInt16) : (n : ℕ) → Node n → Prop
  | boot {n : ℕ} {m : Memory n} {st : Store} (hc : m.Configured)
      (hid : ∀ seam, m.store = some seam → seam.id = id) (hone : OneEach (st.get id maxImage)) :
      Reach id n (boot m st)
  | step {n : ℕ} {x : Node n} (h : Reach id n x) (op : Op n) : Reach id n (x.step op)
  | update {n k : ℕ} {x : Node n} (h : Reach id n x) {m : Memory k} (hc : m.Configured)
      (hid : ∀ seam, m.store = some seam → seam.id = id) : Reach id k (Node.boot m x.store)

/-- What holds of every reachable memory, started with `m`. -/
structure Kempt (id : UInt16) (m : Memory n) (x : Node n) : Prop where
  config : m.Configured
  dtc : ∀ i, (x.mem.slots i).dtc = (m.slots i).dtc
  store : x.mem.store = m.store
  sound : ∀ seam, m.store = some seam → seam.id = id ∧ Sound m seam x
  ordered : Ordered x.mem
  image : OneEach (x.store.get id maxImage)

section
variable {id : UInt16} {m : Memory n} {x : Node n}

theorem kempt_boot (hc : m.Configured) (hid : ∀ seam, m.store = some seam → seam.id = id)
    {st : Store} (hone : OneEach (st.get id maxImage)) : Kempt id m (boot m st) := by
  have hboot : ∀ seam, m.store = some seam → Sound m seam (boot m st) := fun seam hs =>
    sound_boot hs (fun _ => rfl) (fun _ _ => rfl) hc.distinct st
  have hordered : Ordered (boot m st).mem := ordered_boot hc.distinct st fun seam hs => by
    rw [storedImage, hid seam hs]
    exact hone
  cases hs : m.store with
  | none =>
    rw [boot_of_none hs] at hordered ⊢
    refine ⟨hc, fun _ => rfl, rfl, fun seam h => ?_, hordered, hone⟩
    rw [hs] at h
    cases h
  | some seam =>
    exact ⟨hc, (hboot seam hs).dtc, (hboot seam hs).store.trans hs.symm,
      fun seam h => ⟨hid seam h, hboot seam h⟩, hordered, hone⟩

/-- An image that is built has one record for a DTC. -/
theorem oneEach_image {m₁ : Memory n} (hd : m₁.Distinct) (hn : m₁.Narrow) (c : Option UInt32) :
    OneEach (m₁.image c) := by
  intro _ r hr r' hr' heq
  rw [records_image] at hr hr'
  have hb := (built_image hn c).dtc
  have := (hb ⟨r, hr⟩).symm.trans (heq.trans (hb ⟨r', hr'⟩))
  exact congrArg Fin.val (hd _ _ this)

/-- The stored image after an operation. -/
theorem Kempt.image_step (h : Kempt id m x) (op : Op n) :
    OneEach ((x.step op).store.get id maxImage) := by
  cases hs : m.store with
  | none =>
    rw [kept_step_of_none (h.store.trans hs)]
    exact h.image
  | some seam =>
    obtain ⟨hid, hsound⟩ := h.sound seam hs
    have himage := h.image
    rw [← hid] at himage ⊢
    have hbuilt : ∀ {m₁ : Memory n}, Stores x.mem m₁ → ∀ c, OneEach (m₁.image c) := by
      intro m₁ hm₁ c
      have hdtc : ∀ i, (m₁.slots i).dtc = (x.mem.slots i).dtc := fun i =>
        (Grows.of_kept (hm₁.slots i)).dtc
      refine oneEach_image (fun i j hij => ?_) (fun i => ?_) c
      · rw [hdtc, hdtc] at hij
        exact hsound.distinct h.config i j hij
      · rw [hdtc]
        exact hsound.narrow h.config i
    cases op with
    | persist now flush =>
      obtain ⟨-, m₁, hm₁, hi⟩ := persist_spec x.mem x.store now flush hsound.store
        (hsound.foreign h.config hs)
      rcases hi with ⟨hb, -⟩ | ⟨hb, -⟩
      · have heq : storedImage (x.step (.persist now flush)).store seam = storedImage x.store seam :=
          storedImage_congr hb
        rw [storedImage, storedImage] at heq
        rw [heq]
        exact himage
      · have heq : storedImage (x.step (.persist now flush)).store seam = m₁.image none :=
          storedImage_of_block h.config.fits hb
        rw [storedImage] at heq
        rw [heq]
        exact hbuilt hm₁ none
    | clear group =>
      rcases clear_spec hsound h.config hs group with ⟨-, -, -, -, hb⟩ | ⟨-, -, m₁, hm₁, -, hb, -⟩
      · have heq : storedImage (x.step (.clear group)).store seam = storedImage x.store seam :=
          storedImage_congr hb
        rw [storedImage, storedImage] at heq
        rw [heq]
        exact himage
      · rw [storedImage] at hb
        rw [hb]
        exact hbuilt hm₁ (some group)
    | consume _ _ | capture _ | cycleStart | cycleEnd | endCycleAfter _ _ | setSetting _ | reset =>
      exact himage

theorem Kempt.distinct (h : Kempt id m x) : x.mem.Distinct := by
  intro i j hij
  rw [h.dtc, h.dtc] at hij
  exact h.config.distinct i j hij

theorem Kempt.ordered_step (h : Kempt id m x) (op : Op n) : Ordered (x.step op).mem := by
  cases op with
  | consume i r =>
    exact h.ordered.of_frames (sameFrame_setSlot (.consume _ _ _ _)) rfl rfl
  | capture dids => exact h.ordered.capture dids
  | cycleStart => exact h.ordered.cycleStart
  | cycleEnd => exact h.ordered.cycleEnd
  | endCycleAfter now grace =>
    simp only [step, endCycleAfter]
    split
    · exact h.ordered
    · exact h.ordered.of_eq (fun _ => rfl) rfl rfl
  | clear group => exact h.ordered.clear x.store group
  | setSetting on =>
    simp only [step, setSetting]
    split
    · exact h.ordered.of_frames (fun i => .switchOn _ _) rfl rfl
    · exact h.ordered.of_eq (fun _ => rfl) rfl rfl
  | persist now flush => exact h.ordered.stores (x.mem.persist_stores x.store now flush)
  | reset =>
    refine ordered_boot h.distinct x.store fun seam hs => ?_
    rw [h.store] at hs
    rw [storedImage, (h.sound seam hs).1]
    exact h.image

/-- An operation leaves the DTCs and the store's place. -/
theorem Kempt.config_step (h : Kempt id m x) (op : Op n) :
    (∀ i, ((x.step op).mem.slots i).dtc = (m.slots i).dtc) ∧ (x.step op).mem.store = m.store := by
  have hgrows : ∀ {m' : Memory n}, GrowsTo x.mem m' →
      (∀ i, (m'.slots i).dtc = (m.slots i).dtc) ∧ m'.store = m.store := fun hg =>
    ⟨fun i => (hg.slots i).dtc.trans (h.dtc i), hg.store.trans h.store⟩
  cases hs : m.store with
  | some seam =>
    have hsound := sound_step (h.sound seam hs).2 h.config hs op
    exact ⟨hsound.dtc, hsound.store⟩
  | none =>
    rw [← hs]
    have hx : x.mem.store = none := h.store.trans hs
    cases op with
    | consume i r => exact hgrows (growsTo_consume _ _ _)
    | capture dids => exact hgrows (growsTo_capture _ _)
    | cycleStart => exact hgrows (growsTo_cycleStart _)
    | cycleEnd => exact hgrows (growsTo_cycleEnd _)
    | endCycleAfter now grace => exact hgrows (growsTo_endCycleAfter _ _ _)
    | setSetting on => exact hgrows (growsTo_setSetting _ _)
    | persist now flush =>
      have hst := x.mem.persist_stores x.store now flush
      exact ⟨fun i => (Grows.of_kept (hst.slots i)).dtc.trans (h.dtc i), hst.store.trans h.store⟩
    | clear group =>
      have hp := persistClear_of_none hx x.store group
      rcases x.mem.clear_cases x.store group with ⟨-, heq⟩ | ⟨-, -, heq⟩ | ⟨-, -, -, heq⟩
      · rw [step, heq]
        exact ⟨h.dtc, h.store⟩
      · rw [step, heq, hp]
        exact ⟨h.dtc, h.store⟩
      · rw [step, heq, hp]
        refine ⟨fun i => ?_, (store_clearNamed _ _).trans h.store⟩
        dsimp only
        rw [slots_clearNamed]
        split
        · exact h.dtc i
        · exact h.dtc i
    | reset =>
      rw [step, boot_of_none hx]
      exact ⟨h.dtc, h.store⟩

theorem Kempt.step (h : Kempt id m x) (op : Op n) : Kempt id m (x.step op) :=
  ⟨h.config, (h.config_step op).1, (h.config_step op).2, fun seam hs =>
    ⟨(h.sound seam hs).1, sound_step (h.sound seam hs).2 h.config hs op⟩, h.ordered_step op,
    h.image_step op⟩

end

theorem Reach.kempt {id : UInt16} {x : Node n} (h : Reach id n x) : ∃ m, Kempt id m x := by
  induction h with
  | boot hc hid hone => exact ⟨_, kempt_boot hc hid hone⟩
  | step _ op ih =>
    obtain ⟨m, ih⟩ := ih
    exact ⟨m, ih.step op⟩
  | update _ hc hid ih =>
    obtain ⟨m, ih⟩ := ih
    exact ⟨_, kempt_boot hc hid ih.image⟩

/-- In every reachable memory an entry belongs to a slot exactly when the slot names it, and lies
within the capacity. Releasing an entry and giving a slot without one an entry keep this, and what is
displaced for it did not fail in this cycle, is not active and confirmed and is not more important.
When another configuration starts on the store, dropping the entries that are too many ends: no pass
after the first `maxEntries` does anything. -/
theorem entries_indexed {id : UInt16} {x : Node n} (h : Reach id n x) :
    (∀ (k : Fin maxEntries) (i : Fin n),
      (∃ e, x.mem.entries k = some e ∧ e.slot = i) ↔ (x.mem.slots i).entry = some k) ∧
    (∀ k e, x.mem.entries k = some e → k.val < x.mem.cap) ∧
    (∀ m : Memory n, Ordered m → ∀ i, Ordered (m.freeEntry i)) ∧
    (∀ (m m' : Memory n) (i : Fin n) (k : Fin maxEntries), m.allocate i = some (k, m') →
      (∀ e, m.entries k = some e → ¬m.Protected i e) ∧
      (Ordered m → (m.slots i).entry = none → Ordered m')) ∧
    ∀ (n' : ℕ) (m : Memory n'), m.Configured → (∀ seam, m.store = some seam → seam.id = id) →
      ∀ seam, m.store = some seam → IsImage (storedImage x.store seam) →
        let m' := m.gathered x.store (storedImage x.store seam)
        (dropEntries maxEntries m').usedEntries.length ≤ m'.cap ∧
          (∀ more, dropEntries (maxEntries + more) m' = dropEntries maxEntries m') ∧
          Ordered m'.fitEntries := by
  obtain ⟨m₀, hm⟩ := h.kempt
  refine ⟨fun k i => (hm.ordered.indexed i k).symm, hm.ordered.within, fun m ho i => ho.freeEntry i,
    fun m m' i k ha => ?_, fun n' m hc hid seam hs hi => ?_⟩
  · obtain ⟨-, hfree, hindexed, hwithin⟩ := allocate_spec ha
    exact ⟨hfree, fun ho hnone => ⟨hindexed hnone ho.indexed, hwithin ho.within⟩⟩
  · have himage : OneEach (storedImage x.store seam) := by
      rw [storedImage, hid seam hs]
      exact hm.image
    have hg := indexed_gathered hc.distinct x.store hi himage
    obtain ⟨-, hfit, hmore⟩ := hg.dropEntries (length_usedEntries _)
    exact ⟨hfit, hmore, hg.fitEntries⟩

/-- A DTC with a snapshot that has failed and whose snapshot was taken. -/
def snapTaken : Node 1 :=
  [.cycleStart, .consume 0 ⟨0, true, 1, 1⟩, .capture [(0xF400, [7, 8])]].foldl step
    (boot snapFault blankStore)

theorem entries_indexed_snapFault :
    (∃ e, snapTaken.mem.entries ⟨0, by decide⟩ = some e ∧ e.slot = 0) ∧
      (snapTaken.mem.slots 0).entry = some ⟨0, by decide⟩ ∧ 0 < snapTaken.mem.cap := by
  have hid : ∀ seam, snapFault.store = some seam → seam.id = 1 := by
    intro seam hs
    cases hs
    rfl
  have hboot : Reach 1 1 (boot snapFault blankStore) :=
    .boot configured_snapFault hid fun hi => absurd hi (by decide)
  have htaken : Reach 1 1 snapTaken :=
    ((hboot.step .cycleStart).step (.consume 0 ⟨0, true, 1, 1⟩)).step (.capture [(0xF400, [7, 8])])
  have hnames : (snapTaken.mem.slots 0).entry = some ⟨0, by decide⟩ := by decide
  obtain ⟨hindexed, hwithin, -⟩ := entries_indexed htaken
  obtain ⟨e, he, hs⟩ := (hindexed ⟨0, by decide⟩ 0).mpr hnames
  exact ⟨⟨e, he, hs⟩, hnames, hwithin _ e he⟩

end Node
end BloblyEmb.Fault
