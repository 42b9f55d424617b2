import BloblyEmb.Fault.Claims

/-!
# Snapshots over the life of a memory

Capturing, displacing, clearing, ending a cycle and restoring keep slots, entries and claims
together, so that over any number of lives the writes respect the claims of the stored image.
-/
namespace BloblyEmb.Fault

/-- The slots agree in all that ties them to their snapshot. -/
structure SameFrame (s s' : Slot) : Prop extends Memory.SameHold s s' where
  live : s'.live = s.live

namespace SameFrame

theorem refl (s : Slot) : SameFrame s s := ⟨.refl s, rfl⟩

theorem trans {s s' s'' : Slot} (h : SameFrame s s') (h' : SameFrame s' s'') : SameFrame s s'' :=
  ⟨h.toSameHold.trans h'.toSameHold, h'.live.trans h.live⟩

/-- A change of the status, the counters and the protocol. -/
theorem of_eq {s s' : Slot} (h : s' = { s' with
    dtc := s.dtc, snapId := s.snapId, snapIdB := s.snapIdB, freeze := s.freeze, entry := s.entry,
    claim := s.claim, claimOk := s.claimOk, live := s.live }) : SameFrame s s' := by
  rw [h]
  exact ⟨⟨⟨rfl, rfl, rfl, rfl⟩, rfl, rfl, rfl⟩, rfl⟩

theorem countCycle (s : Slot) : SameFrame s s.countCycle := by
  simp only [Slot.countCycle]
  split
  · exact .refl s
  · exact .of_eq rfl

theorem failure (s : Slot) (df : UInt16) : SameFrame s (s.failure df) := by
  have hcount : ∀ t : Slot, SameFrame s t → SameFrame s { t.countCycle with agingCount := 0 } :=
    fun t ht => (ht.trans (countCycle t)).trans (.of_eq rfl)
  simp only [Slot.failure]
  split
  · exact hcount _ (.of_eq rfl)
  · exact hcount _ (.of_eq rfl)

theorem count (s : Slot) (failed : Bool) (df dt : UInt16) : SameFrame s (s.count failed df dt) := by
  have htested : SameFrame s (if 0 < dt then s.tested failed else s) := by
    split
    · exact .of_eq rfl
    · exact .refl s
  simp only [Slot.count]
  split
  · exact htested.trans (failure _ df)
  · exact htested

theorem consume (s : Slot) (off active : Bool) (r : Report) :
    SameFrame s (s.consume off active r) := by
  simp only [Slot.consume]
  split
  · split
    · exact .of_eq rfl
    · exact .of_eq rfl
  · split
    · exact .of_eq rfl
    · split
      · exact .of_eq rfl
      · exact SameFrame.trans (.of_eq rfl) (count _ _ _ _)

theorem endSlot (s : Slot) : SameFrame s (Memory.endSlot s) := by
  simp only [Memory.endSlot]
  split
  · split
    · exact .of_eq rfl
    · split
      · split
        · exact .of_eq rfl
        · exact .of_eq rfl
      · exact .of_eq rfl
  · exact .refl s

theorem switchOn (s : Slot) (boundary : Bool) : SameFrame s (Memory.switchOn s boundary) := by
  have hgen : SameFrame s (if s.canRenew then
      { s with waitGen := false }.renew (Has s.status testFailed)
      else { s with waitGen := true }) := by
    split
    · exact .of_eq rfl
    · exact .of_eq rfl
  simp only [Memory.switchOn]
  split
  · exact hgen.trans (.of_eq rfl)
  · exact hgen

end SameFrame

namespace Memory
variable {n : ℕ} {c m : Memory n} {seam : Seam} {C : Fin n → List UInt8 → Prop} {st : Store}

/-! ## One slot -/

theorem sameFrame_setSlot {i : Fin n} {s : Slot} (h : SameFrame (m.slots i) s) (j : Fin n) :
    SameFrame (m.slots j) ((m.setSlot i s).slots j) := by
  rw [slots_setSlot]
  split
  · rename_i hj
    subst hj
    exact h
  · exact .refl _

theorem Linked.of_frames {m' : Memory n} (h : Linked c seam C m st)
    (hs : ∀ i, SameFrame (m.slots i) (m'.slots i)) (he : m'.entries = m.entries)
    (hstore : m'.store = m.store) : Linked c seam C m' st :=
  h.of_same (fun i => (hs i).toSameHold) he hstore fun i _ hl => .inl ((hs i).live ▸ hl)

theorem Whole.of_frames {m' : Memory n} (h : Whole c seam C m st)
    (hs : ∀ i, SameFrame (m.slots i) (m'.slots i)) (he : m'.entries = m.entries)
    (hstore : m'.store = m.store) : Whole c seam C m' st :=
  h.of_same (fun i => (hs i).toSameHold) he hstore fun i _ hl => .inl ((hs i).live ▸ hl)

/-! ## Entries -/

/-- Dropping a slot's entry leaves the entries of the others. -/
theorem Linked.entries_freeEntry (h : Linked c seam C m st) (i : Fin n) (k : Fin maxEntries)
    (e : Entry n) : (m.freeEntry i).entries k = some e ↔ m.entries k = some e ∧ e.slot ≠ i := by
  simp only [freeEntry]
  split
  · rename_i k' hk'
    rw [entries_setSlot, entries_setEntry]
    split
    · rename_i hkk
      subst hkk
      refine ⟨fun he => (by cases he), ?_⟩
      rintro ⟨he, hne⟩
      obtain ⟨e', he', hs⟩ := (h.entry i k).mp hk'
      rw [he] at he'
      cases he'
      exact absurd hs hne
    · rename_i hkk
      refine ⟨fun he => ⟨he, fun hs => hkk ?_⟩, And.left⟩
      have hk := (h.entry i k).mpr ⟨e, he, hs⟩
      rw [hk'] at hk
      exact (Option.some.inj hk).symm
  · rename_i hnone
    rw [entries_setSlot]
    refine ⟨fun he => ⟨he, fun hs => ?_⟩, And.left⟩
    have hk := (h.entry i k).mpr ⟨e, he, hs⟩
    rw [hnone] at hk
    cases hk

theorem Linked.freeEntry (h : Linked c seam C m st) (i : Fin n) :
    Linked c seam C (m.freeEntry i) st := by
  have hslot : ∀ j, SameBlocks (m.slots j) ((m.freeEntry i).slots j) ∧
      ((m.freeEntry i).slots j).claim = (m.slots j).claim ∧
      ((m.freeEntry i).slots j).claimOk = (m.slots j).claimOk ∧
      ((m.freeEntry i).slots j).live = (m.slots j).live := by
    intro j
    by_cases hj : j = i
    · subst hj
      rw [slots_freeEntry_self]
      exact ⟨⟨rfl, rfl, rfl, rfl⟩, rfl, rfl, rfl⟩
    · rw [slots_freeEntry_of_ne _ hj]
      exact ⟨.refl _, rfl, rfl, rfl⟩
  refine ⟨fun j => (h.config j).trans (hslot j).1, (m.framed_freeEntry i).store.trans h.store,
    fun j k => ?_, fun k e he => ?_, fun k e he hd => ?_, fun k e he hd => ?_,
    fun k e he hd hc => ?_, fun j b hl => ?_⟩
  · by_cases hj : j = i
    · subst hj
      rw [slots_freeEntry_self]
      refine ⟨fun hk => (by cases hk), ?_⟩
      rintro ⟨e, he, hs⟩
      exact absurd hs ((h.entries_freeEntry j k e).mp he).2
    · rw [slots_freeEntry_of_ne _ hj, h.entry j k]
      constructor
      · rintro ⟨e, he, hs⟩
        exact ⟨e, (h.entries_freeEntry i k e).mpr ⟨he, fun hi => hj (hs.symm.trans hi)⟩, hs⟩
      · rintro ⟨e, he, hs⟩
        exact ⟨e, ((h.entries_freeEntry i k e).mp he).1, hs⟩
  · exact h.frames k e ((h.entries_freeEntry i k e).mp he).1
  · rw [(hslot e.slot).2.1]
    exact h.fresh k e ((h.entries_freeEntry i k e).mp he).1 hd
  · exact h.held k e ((h.entries_freeEntry i k e).mp he).1 hd
  · rw [(hslot e.slot).2.1] at hc
    rw [(hslot e.slot).2.2.1]
    exact h.readable k e ((h.entries_freeEntry i k e).mp he).1 hd hc
  · rw [(hslot j).2.2.2] at hl
    exact h.live j b hl

theorem Whole.freeEntry (h : Whole c seam C m st) (i : Fin n) :
    Whole c seam C (m.freeEntry i) st := by
  refine ⟨h.toLinked.freeEntry i, fun hi => (h.claims hi).of_claim fun j => ?_, h.stored⟩
  by_cases hj : j = i
  · subst hj
    rw [slots_freeEntry_self]
  · rw [slots_freeEntry_of_ne _ hj]

/-- A new entry for a slot without one, in a place that is free. -/
theorem Linked.add (h : Linked c seam C m st) {k : Fin maxEntries} {e : Entry n}
    (hk : m.entries k = none) (hi : (m.slots e.slot).entry = none)
    (hf : (c.slots e.slot).freeze ≠ [])
    (hfresh : e.durable = false → (m.slots e.slot).claim ≠ some e.blk ∧ C e.slot e.data)
    (hheld : e.durable = true →
      c.Captured C e.slot (st.blocks ((c.slots e.slot).blockId e.blk)) ∧
        ((m.slots e.slot).claim = some e.blk → (m.slots e.slot).claimOk = true)) :
    Linked c seam C ((m.setEntry k (some e)).setSlot e.slot
      { m.slots e.slot with entry := some k }) st := by
  have hslot : ∀ j, ∃ o, (((m.setEntry k (some e)).setSlot e.slot
      { m.slots e.slot with entry := some k }).slots j) = { m.slots j with entry := o } ∧
      o = if j = e.slot then some k else (m.slots j).entry := by
    intro j
    refine ⟨_, ?_, rfl⟩
    by_cases hj : j = e.slot
    · subst hj
      rw [slots_setSlot_self, if_pos rfl]
    · rw [slots_setSlot_of_ne _ hj, if_neg hj]
      rfl
  have hcase : ∀ {j e'}, ((m.setEntry k (some e)).setSlot e.slot
      { m.slots e.slot with entry := some k }).entries j = some e' →
      e' = e ∨ m.entries j = some e' := by
    intro j e' he
    rw [entries_setSlot, entries_setEntry] at he
    split at he
    · exact .inl (Option.some.inj he).symm
    · exact .inr he
  refine ⟨fun j => ?_, h.store, fun j k' => ?_, fun k' e' he => ?_, fun k' e' he hd => ?_,
    fun k' e' he hd => ?_, fun k' e' he hd => ?_, fun j b hl => ?_⟩
  · obtain ⟨o, heq, -⟩ := hslot j
    rw [heq]
    exact (h.config j).trans ⟨rfl, rfl, rfl, rfl⟩
  · obtain ⟨o, heq, ho⟩ := hslot j
    rw [heq, entries_setSlot, entries_setEntry]
    dsimp only
    rw [ho]
    by_cases hj : j = e.slot
    · subst hj
      rw [if_pos rfl]
      by_cases hkk : k' = k
      · subst hkk
        simp
      · have hno : ¬∃ e', m.entries k' = some e' ∧ e'.slot = e.slot := by
          rw [← h.entry e.slot k', hi]
          simp
        rw [if_neg hkk]
        simp [Ne.symm hkk, hno]
    · rw [if_neg hj, h.entry j k']
      by_cases hkk : k' = k
      · subst hkk
        simp [hk, Ne.symm hj]
      · rw [if_neg hkk]
  · rcases hcase he with rfl | he
    · exact hf
    · exact h.frames k' e' he
  · obtain ⟨o, heq, -⟩ := hslot e'.slot
    rw [heq]
    rcases hcase he with rfl | he
    · exact hfresh hd
    · exact h.fresh k' e' he hd
  · rcases hcase he with rfl | he
    · exact (hheld hd).1
    · exact h.held k' e' he hd
  · obtain ⟨o, heq, -⟩ := hslot e'.slot
    rw [heq]
    rcases hcase he with rfl | he
    · exact (hheld hd).2
    · exact h.readable k' e' he hd
  · obtain ⟨o, heq, -⟩ := hslot j
    rw [heq] at hl
    exact h.live j b hl

theorem Linked.of_eq {m' : Memory n} (h : Linked c seam C m st) (hs : m'.slots = m.slots)
    (he : m'.entries = m.entries) (hstore : m'.store = m.store) : Linked c seam C m' st :=
  h.of_frames (fun i => by rw [hs]; exact .refl _) he hstore

/-- A new entry waits in the block of its DTC that the image does not claim. -/
theorem Whole.place (h : Whole c seam C m st) {i : Fin n} {k : Fin maxEntries}
    (hk : m.entries k = none) (hi : (m.slots i).entry = none) (hf : (c.slots i).freeze ≠ [])
    (took : Bool) {data : List UInt8} (hC : C i data) :
    Whole c seam C ((m.place i k took).setEntry k
      (((m.place i k took).entries k).map fun e => { e with data := data })) st := by
  let blk := if (m.slots i).claim = some .A then Block.B else .A
  have hblk : (m.slots i).claim ≠ some blk := by
    dsimp only [blk]
    split
    · rename_i hA
      rw [hA]
      simp
    · rename_i hA
      exact hA
  have hadd := h.toLinked.add (e := ⟨i, m.nextStamp, false, blk, took, data⟩) hk hi hf
    (fun _ => ⟨hblk, hC⟩) (fun hd => (by cases hd))
  refine ⟨hadd.of_eq rfl ?_ rfl, fun hs => (h.claims hs).of_claim fun j => ?_, h.stored⟩
  · simp only [Memory.place, setEntry, setSlot, Function.update_self, Option.map_some,
      Function.update_idem]
    rfl
  · rw [slots_setEntry]
    by_cases hj : j = i
    · subst hj
      rw [slots_place_self]
    · rw [slots_place_of_ne _ hj]

/-! ## Capturing -/

theorem victim_eq {i : Fin n} {k : Fin maxEntries} {e : Entry n} (h : m.victim i = some (k, e)) :
    m.entries k = some e := by
  have hfold : ∀ b ∈ m.victim i, m.entries b.1 = some b.2 := by
    refine List.foldlRecOn (motive := fun best : Option (Fin maxEntries × Entry n) =>
      ∀ b ∈ best, m.entries b.1 = some b.2) _ _ (by simp) ?_
    intro best hbest k' _
    split
    · exact hbest
    · rename_i e' he'
      split
      · exact hbest
      · split
        · simp [he']
        · split
          · simp [he']
          · exact hbest
  exact hfold (k, e) h

/-- Displacing an entry drops it before its place is taken. -/
theorem place_displaced {i : Fin n} {k : Fin maxEntries} {e : Entry n}
    (hk : (m.slots e.slot).entry = some k) (took : Bool) :
    ({ m.setSlot e.slot { m.slots e.slot with entry := none } with
      displaced := m.displaced + 1 } : Memory n).place i k took =
    ({ m.freeEntry e.slot with displaced := m.displaced + 1 } : Memory n).place i k took := by
  have hfree : m.freeEntry e.slot =
      (m.setEntry k none).setSlot e.slot { m.slots e.slot with entry := none } := by
    simp only [Memory.freeEntry, hk]
    rfl
  rw [hfree]
  simp only [Memory.place, setSlot, setEntry, Function.update_idem]
  rfl

theorem body_sameBlocks {s s' : Slot} (h : SameBlocks s s') (dids : List (UInt16 × List UInt8)) :
    body dids s' = body dids s := by
  simp only [body, h.freeze]

/-- A due snapshot of slot `i` is taken now. -/
theorem Whole.captureSlot (h : Whole c seam C m st) (dids : List (UInt16 × List UInt8)) (i : Fin n)
    (hC : (m.slots i).snapDue = true → Has (m.slots i).status (pending ||| confirmed) →
      C i (body dids (c.slots i))) : Whole c seam C (captureSlot dids m i) st := by
  simp only [Memory.captureSlot]
  split
  · exact h
  · rename_i hdue
    have h₁ : Whole c seam C (m.setSlot i { m.slots i with snapDue := false }) st :=
      h.of_frames (sameFrame_setSlot (.of_eq rfl)) rfl rfl
    have hs₁ : (m.setSlot i { m.slots i with snapDue := false }).slots i =
        { m.slots i with snapDue := false } := slots_setSlot_self _ _ _
    revert h₁ hs₁
    generalize m.setSlot i { m.slots i with snapDue := false } = m₁
    intro h₁ hs₁
    split
    · exact h₁
    · rename_i hno
      simp only [not_or, not_not] at hno
      obtain ⟨hf, hentry, hfail⟩ := hno
      have hf' : (c.slots i).freeze ≠ [] := by
        rw [← (h₁.config i).freeze]
        exact hf
      have hbody : C i (body dids (m₁.slots i)) := by
        rw [body_sameBlocks (h₁.config i)]
        apply hC (by simpa using hdue)
        rw [hs₁] at hfail
        exact hfail
      split
      · exact h₁
      · rename_i k m₂ ha
        simp only [allocate] at ha
        split at ha
        · rename_i k' hfind
          simp only [Option.some.injEq, Prod.mk.injEq] at ha
          obtain ⟨rfl, rfl⟩ := ha
          have hk : m₁.entries k' = none := by simpa using List.find?_some hfind
          exact h₁.place hk hentry hf' false hbody
        · split at ha
          · cases ha
          · rename_i k' e hv
            simp only [Option.some.injEq, Prod.mk.injEq] at ha
            obtain ⟨rfl, rfl⟩ := ha
            have he := victim_eq hv
            have hk := (h₁.entry e.slot k').mpr ⟨e, he, rfl⟩
            rw [place_displaced hk]
            have hfree : (m₁.freeEntry e.slot).entries k' = none := by
              cases hx : (m₁.freeEntry e.slot).entries k' with
              | none => rfl
              | some e' =>
                obtain ⟨he', hne⟩ := (h₁.entries_freeEntry e.slot k' e').mp hx
                rw [he] at he'
                cases he'
                exact absurd rfl hne
            have hi : ((m₁.freeEntry e.slot).slots i).entry = none := by
              by_cases hie : i = e.slot
              · rw [hie, slots_freeEntry_self]
              · rw [slots_freeEntry_of_ne _ hie]
                exact hentry
            have h₂ : Whole c seam C
                ({ m₁.freeEntry e.slot with displaced := m₁.displaced + 1 } : Memory n) st :=
              (h₁.freeEntry e.slot).of_eq rfl rfl rfl
            exact h₂.place hfree hi hf' _ hbody

/-- Taking one snapshot leaves what is due of the others. -/
theorem snapDue_captureSlot (m : Memory n) (dids : List (UInt16 × List UInt8)) {i j : Fin n}
    (h : j ≠ i) : ((captureSlot dids m i).slots j).snapDue = (m.slots j).snapDue := by
  simp only [Memory.captureSlot]
  split
  · rfl
  · split
    · rw [slots_setSlot_of_ne _ h]
    · split
      · rw [slots_setSlot_of_ne _ h]
      · rename_i k m₂ ha
        rw [slots_setEntry]
        simp only [allocate] at ha
        split at ha
        · simp only [Option.some.injEq, Prod.mk.injEq] at ha
          obtain ⟨-, rfl⟩ := ha
          rw [slots_place_of_ne _ h, slots_setSlot_of_ne _ h]
        · split at ha
          · cases ha
          · rename_i k' e _
            simp only [Option.some.injEq, Prod.mk.injEq] at ha
            obtain ⟨-, rfl⟩ := ha
            rw [slots_place_of_ne _ h]
            by_cases hje : j = e.slot
            · rw [← hje]
              simp [h]
            · simp [h, hje]

/-- Taking the due snapshots. -/
theorem Whole.capture (h : Whole c seam C m st) (dids : List (UInt16 × List UInt8))
    (hC : ∀ i, (m.slots i).snapDue = true → Has (m.slots i).status (pending ||| confirmed) →
      C i (body dids (c.slots i))) : Whole c seam C (m.capture dids) st := by
  have hloop : ∀ (l : List (Fin n)), l.Nodup → ∀ m' : Memory n, Whole c seam C m' st →
      (∀ i ∈ l, (m'.slots i).snapDue = (m.slots i).snapDue) →
      (∀ i, (m'.slots i).status = (m.slots i).status) →
      Whole c seam C (l.foldl (Memory.captureSlot dids) m') st := by
    intro l
    induction l with
    | nil => exact fun _ m' hm' _ _ => hm'
    | cons i l ih =>
      intro hnd m' hm' hdue hstatus
      obtain ⟨hni, hnd⟩ := List.nodup_cons.mp hnd
      apply ih hnd
      · apply hm'.captureSlot
        intro hd hp
        rw [hdue i List.mem_cons_self] at hd
        rw [hstatus i] at hp
        exact hC i hd hp
      · intro j hj
        have hji : j ≠ i := fun heq => hni (heq ▸ hj)
        rw [snapDue_captureSlot _ _ hji]
        exact hdue j (List.mem_cons_of_mem _ hj)
      · intro j
        rw [((m'.taken_captureSlot dids i).1 j).status]
        exact hstatus j
  exact hloop _ (List.nodup_finRange n) m h (fun _ _ => rfl) fun _ => rfl

/-! ## Cycles, the setting and clears -/

theorem Linked.cycleEndSlot (h : Linked c seam C m st) (i : Fin n) :
    Linked c seam C (m.cycleEndSlot i) st := by
  have h₁ : Linked c seam C (m.setSlot i (endSlot (m.slots i))) st :=
    h.of_frames (sameFrame_setSlot (.endSlot _)) rfl rfl
  simp only [Memory.cycleEndSlot]
  split
  · exact h₁.freeEntry i
  · exact h₁

theorem claim_cycleEnd (m : Memory n) (i : Fin n) :
    (m.cycleEnd.slots i).claim = (m.slots i).claim := by
  rw [slots_cycleEnd]
  split
  · simp only [endedSlot]
    split
    · exact (SameFrame.endSlot _).claim
    · exact (SameFrame.endSlot _).claim
  · rfl

theorem Linked.cycleEnd (h : Linked c seam C m st) : Linked c seam C m.cycleEnd st := by
  have hflag : ∀ m' : Memory n, m'.slots = m.slots → m'.entries = m.entries → m'.store = m.store →
      Linked c seam C m' st := fun m' hs he hst =>
    h.of_frames (fun i => by rw [hs]; exact .refl _) he hst
  simp only [Memory.cycleEnd]
  split
  · exact hflag _ rfl rfl rfl
  · split
    · exact hflag _ rfl rfl rfl
    · refine List.foldlRecOn (motive := fun m' => Linked c seam C m' st) _ _
        (hflag _ rfl rfl rfl) ?_
      intro m' h' i _
      exact h'.cycleEndSlot i

theorem Whole.cycleEnd (h : Whole c seam C m st) : Whole c seam C m.cycleEnd st :=
  ⟨h.toLinked.cycleEnd, fun hi => (h.claims hi).of_claim fun i => m.claim_cycleEnd i, h.stored⟩

theorem Whole.cycleStart (h : Whole c seam C m st) : Whole c seam C m.cycleStart st := by
  let m₁ := if m.cycleActive then ({ m with ending := false } : Memory n).cycleEnd
    else { m with ending := false }
  have h₀ : Whole c seam C { m with ending := false } st := h.of_eq rfl rfl rfl
  have h₁ : Whole c seam C m₁ st := by
    simp only [m₁]
    split
    · exact h₀.cycleEnd
    · exact h₀
  let m₂ := if m₁.settingOff then { m₁ with boundaryOff := true } else m₁
  have h₂ : Whole c seam C m₂ st := by
    simp only [m₂]
    split
    · exact h₁.of_eq rfl rfl rfl
    · exact h₁
  have hlast : Whole c seam C { m₂ with
      cycleActive := true
      slots := fun i => { m₂.slots i with
        status := if m₂.settingOff then (m₂.slots i).status else restartBits (m₂.slots i).status
        failedCycle := false
        testedCycle := false } } st :=
    h₂.of_frames (fun i => .of_eq rfl) rfl rfl
  exact hlast

theorem Whole.setSetting (h : Whole c seam C m st) (on : Bool) :
    Whole c seam C (m.setSetting on) st := by
  simp only [Memory.setSetting]
  split
  · exact h.of_frames (fun i => .switchOn _ _) rfl rfl
  · exact h.of_eq rfl rfl rfl

theorem Whole.clearNamed (h : Whole c seam C m st) (group : UInt32) :
    Whole c seam C (m.clearNamed group) st := by
  refine List.foldlRecOn (motive := fun m' => Whole c seam C m' st) _ _ h ?_
  intro m' h' i _
  split
  · simp only [clearOne]
    have hfree : Whole c seam C (if (m'.slots i).entry ≠ none then m'.freeEntry i else m') st := by
      split
      · exact h'.freeEntry i
      · exact h'
    exact hfree.of_frames (sameFrame_setSlot (.of_eq rfl)) rfl rfl
  · exact h'

theorem Whole.clear (h : Whole c seam C m st) (hb : c.Blocks seam.id) (group : UInt32) :
    Whole c seam C (m.clear st group).2.1 (m.clear st group).2.2 ∧
      SafeTo c seam.id C st (m.clear st group).2.2 := by
  obtain ⟨hw, hsafe⟩ := h.persistClear hb group
  rcases m.clear_cases st group with ⟨-, heq⟩ | ⟨-, -, heq⟩ | ⟨-, -, -, heq⟩
  · rw [heq]
    exact ⟨h, .refl st⟩
  · rw [heq]
    exact ⟨hw, hsafe⟩
  · rw [heq]
    exact ⟨hw.clearNamed group, hsafe⟩

/-! ## Restoring -/

/-- What a restore has done after the first `R` records of an image. -/
structure Reading (c : Memory n) (seam : Seam) (C : Fin n → List UInt8 → Prop) (st : Store)
    (img : List UInt8) (m : Memory n) (R : ℕ) : Prop extends Linked c seam C m st where
  durable : ∀ k e, m.entries k = some e → e.durable = true
  claims : Claims c m img R
  image : m.img = img
  entered : ∀ i, (m.slots i).entry ≠ none → ∃ r < R, recDtc img r = (c.slots i).dtc

theorem loadSnapshot_eq {m' : Memory n} {i : Fin n} {b : Block}
    (h : m.loadSnapshot st i b = some m') : ∃ k stamp data next, m.entries k = none ∧
      m' = { (m.setEntry k (some ⟨i, stamp, true, b, false, data⟩)).setSlot i
        { m.slots i with entry := some k } with nextStamp := next } := by
  simp only [loadSnapshot] at h
  split at h
  · cases h
  · split at h
    · cases h
    · split at h
      · cases h
      · split at h
        · cases h
        · rename_i k hfind
          cases h
          exact ⟨k, _, _, _, by simpa using List.find?_some hfind, rfl⟩

/-- A record that claims a block is of a configured DTC. -/
theorem StoredOk.dtc {img : List UInt8} {blocks : UInt16 → List UInt8}
    (h : c.StoredOk C img blocks) {r : ℕ} (hr : r < records img) {bid : UInt16}
    (hbid : c.recClaim img r = some bid) : ∃ i, (c.slots i).dtc = recDtc img r := by
  by_cases hv : img.getD 0 0 = imageV4
  · simp only [recClaim, if_pos hv] at hbid
    split at hbid
    · cases hbid
    · obtain ⟨i, hi, -⟩ := Option.map_eq_some_iff.mp hbid
      exact ⟨i, slotOf_eq hi⟩
  · obtain ⟨i, -, hd, -⟩ := h.held hv r hr bid hbid
    exact ⟨i, hd⟩

/-- The claim a record makes for its slot is the one of the image. -/
theorem StoredOk.claim {img : List UInt8} {id : UInt16} (h : c.StoredOk C img st.blocks)
    (hb : c.Blocks id) {r : ℕ} (hr : r < records img) {i : Fin n}
    (hi : (c.slots i).dtc = recDtc img r) {s : Slot} (hs : SameBlocks (c.slots i) s)
    {bid : UInt16} (hbid : c.recClaim img r = some bid) :
    ∃ b, (c.slots i).blockId b = bid ∧
      ((c.slots i).freeze ≠ [] → restoredClaim s img r = some b) := by
  have hflag : Has (recAt img r 3) imgSnapshot := by
    by_cases hf : Has (recAt img r 3) imgSnapshot
    · exact hf
    · rw [recClaim, if_pos hf] at hbid
      cases hbid
  by_cases hv : img.getD 0 0 = imageV4
  · rw [recClaim, if_neg (not_not.mpr hflag), if_pos hv, slotOf_of_distinct hb.distinct hi] at hbid
    refine ⟨_, Option.some.inj hbid, fun hf => ?_⟩
    rw [restoredClaim, if_neg (hs.freeze ▸ hf), if_pos hv, if_neg (not_not.mpr hflag)]
    split
    · rfl
    · rfl
  · obtain ⟨j, b, hd, -, hid, -⟩ := h.held hv r hr bid hbid
    obtain rfl : j = i := hb.distinct j i (hd.trans hi.symm)
    refine ⟨b, hid, fun hf => ?_⟩
    rw [recClaim, if_neg (not_not.mpr hflag), if_neg hv] at hbid
    rw [restoredClaim, if_neg (hs.freeze ▸ hf), if_neg hv, imgClaim, Option.some.inj hbid, ← hid,
      ← hs.blockId b]
    apply claimOf_blockId hflag
    rw [hs.snapId, hs.snapIdB]
    exact hb.two j hf

/-- A claim of this format that a record makes names the block it is for. -/
theorem blockId_of_restoredClaim {s : Slot} {img : List UInt8} {r : ℕ} {b : Block}
    (hv : img.getD 0 0 ≠ imageV4) (h : restoredClaim s img r = some b) :
    s.freeze ≠ [] ∧ c.recClaim img r = some (s.blockId b) := by
  rw [restoredClaim] at h
  split at h
  · cases h
  · rename_i hf
    rw [imgClaim, Slot.claimOf] at h
    split at h
    · cases h
    · rename_i hflag
      refine ⟨hf, ?_⟩
      rw [recClaim, if_neg hflag, if_neg hv]
      split at h
      · rename_i hid
        cases h
        exact congrArg some hid
      · split at h
        · rename_i hid
          cases h
          exact congrArg some hid
        · cases h

/-- A restored slot keeps its configuration, its entry and its live blocks. -/
theorem takeRecord_slot (m : Memory n) (i : Fin n) (r : ℕ) (j : Fin n) :
    SameBlocks (m.slots j) ((m.takeRecord i r).slots j) ∧
      ((m.takeRecord i r).slots j).entry = (m.slots j).entry ∧
      ((m.takeRecord i r).slots j).live = (m.slots j).live := by
  by_cases hj : j = i
  · subst hj
    rw [takeRecord, slots_setSlot_self]
    exact ⟨⟨rfl, rfl, rfl, rfl⟩, rfl, rfl⟩
  · rw [takeRecord, slots_setSlot_of_ne _ hj]
    exact ⟨.refl _, rfl, rfl⟩

section
variable {img : List UInt8} {R : ℕ}

theorem Reading.of_eq {m' : Memory n} (h : Reading c seam C st img m R)
    (hs : ∀ i, SameFrame (m.slots i) (m'.slots i)) (he : m'.entries = m.entries)
    (hstore : m'.store = m.store) (himg : m'.img = m.img) : Reading c seam C st img m' R where
  toLinked := h.toLinked.of_frames hs he hstore
  durable := by
    rw [he]
    exact h.durable
  claims := h.claims.of_claim fun i => (hs i).claim
  image := himg.trans h.image
  entered i hi := h.entered i ((hs i).entry ▸ hi)

/-- A slot takes its record's bits, counters and claim. -/
theorem Reading.takeRecord (h : Reading c seam C st img m R) (hb : c.Blocks seam.id)
    (hok : c.StoredOk C img st.blocks) (hR : R < records img) {i : Fin n}
    (hi : (c.slots i).dtc = recDtc img R) :
    Reading c seam C st img (m.takeRecord i R) (R + 1) ∧
      ((m.takeRecord i R).slots i).entry = none := by
  have hslot := m.takeRecord_slot i R
  have hnone : (m.slots i).entry = none := by
    by_contra hno
    obtain ⟨r, hr, hd⟩ := h.entered i hno
    have := hok.apart r (by omega) R hR (hd.trans hi)
    omega
  refine ⟨⟨⟨fun j => (h.config j).trans (hslot j).1, h.store, fun j k => ?_, h.frames,
    fun k e he hd => ?_, h.held, fun k e he hd hc => ?_, fun j b hl => ?_⟩, h.durable,
    fun r hr bid hbid => ?_, h.image, fun j hj => ?_⟩, (hslot i).2.1.trans hnone⟩
  · rw [(hslot j).2.1]
    exact h.entry j k
  · rw [h.durable k e he] at hd
    cases hd
  · have hne : e.slot ≠ i := by
      rintro rfl
      have hk := (h.entry e.slot k).mpr ⟨e, he, rfl⟩
      rw [hnone] at hk
      cases hk
    rw [Memory.takeRecord, slots_setSlot_of_ne _ hne] at hc ⊢
    exact h.readable k e he hd hc
  · rw [(hslot j).2.2] at hl
    exact h.live j b hl
  · rcases Nat.lt_succ_iff_lt_or_eq.mp hr with hr | rfl
    · obtain ⟨j, b, hd, hid, hc⟩ := h.claims r hr bid hbid
      refine ⟨j, b, hd, hid, fun hf => ?_⟩
      have hji : j ≠ i := by
        rintro rfl
        have := hok.apart r (by omega) R hR (hd.symm.trans hi)
        omega
      rw [Memory.takeRecord, slots_setSlot_of_ne _ hji]
      exact hc hf
    · obtain ⟨b, hid, hc⟩ := hok.claim hb hR hi (h.config i) hbid
      refine ⟨i, b, hi, hid, fun hf => ?_⟩
      rw [Memory.takeRecord, slots_setSlot_self]
      rw [← hc hf, h.image]
  · rw [(hslot j).2.1] at hj
    obtain ⟨r, hr, hd⟩ := h.entered j hj
    exact ⟨r, by omega, hd⟩

/-- A slot without an entry may have its claim read. -/
theorem Reading.readableClaim (h : Reading c seam C st img m R) {i : Fin n}
    (hnone : (m.slots i).entry = none) :
    Reading c seam C st img (m.setSlot i { m.slots i with claimOk := true }) R := by
  have hslot : ∀ j, SameBlocks (m.slots j)
      ((m.setSlot i { m.slots i with claimOk := true }).slots j) ∧
      ((m.setSlot i { m.slots i with claimOk := true }).slots j).entry = (m.slots j).entry ∧
      ((m.setSlot i { m.slots i with claimOk := true }).slots j).claim = (m.slots j).claim ∧
      ((m.setSlot i { m.slots i with claimOk := true }).slots j).live = (m.slots j).live := by
    intro j
    by_cases hj : j = i
    · subst hj
      rw [slots_setSlot_self]
      exact ⟨⟨rfl, rfl, rfl, rfl⟩, rfl, rfl, rfl⟩
    · rw [slots_setSlot_of_ne _ hj]
      exact ⟨.refl _, rfl, rfl, rfl⟩
  refine ⟨⟨fun j => (h.config j).trans (hslot j).1, h.store, fun j k => ?_, h.frames,
    fun k e he hd => ?_, h.held, fun k e he hd hc => ?_, fun j b hl => ?_⟩, h.durable,
    h.claims.of_claim fun j => (hslot j).2.2.1, h.image, fun j hj => ?_⟩
  · rw [(hslot j).2.1]
    exact h.entry j k
  · rw [(hslot e.slot).2.2.1]
    exact h.fresh k e he hd
  · have hne : e.slot ≠ i := by
      rintro rfl
      have hk := (h.entry e.slot k).mpr ⟨e, he, rfl⟩
      rw [hnone] at hk
      cases hk
    rw [slots_setSlot_of_ne _ hne] at hc ⊢
    exact h.readable k e he hd hc
  · rw [(hslot j).2.2.2] at hl
    exact h.live j b hl
  · rw [(hslot j).2.1] at hj
    exact h.entered j hj

/-- A loaded snapshot's entry is added. -/
theorem Reading.added (h : Reading c seam C st img m (R + 1)) {k : Fin maxEntries} {e : Entry n}
    (hadd : Linked c seam C ((m.setEntry k (some e)).setSlot e.slot
      { m.slots e.slot with entry := some k }) st)
    (hdtc : recDtc img R = (c.slots e.slot).dtc) (hd : e.durable = true) :
    Reading c seam C st img ((m.setEntry k (some e)).setSlot e.slot
      { m.slots e.slot with entry := some k }) (R + 1) := by
  refine ⟨hadd, fun k' e' he => ?_, h.claims.of_claim fun j => ?_, h.image, fun j hj => ?_⟩
  · rw [entries_setSlot, entries_setEntry] at he
    split at he
    · cases he
      exact hd
    · exact h.durable k' e' he
  · by_cases hj : j = e.slot
    · subst hj
      rw [slots_setSlot_self]
    · rw [slots_setSlot_of_ne _ hj]
      rfl
  · by_cases hje : j = e.slot
    · subst hje
      exact ⟨R, by omega, hdtc⟩
    · rw [slots_setSlot_of_ne _ hje] at hj
      exact h.entered j hj

/-- One record is read. -/
theorem Reading.record (h : Reading c seam C st img m R) (hb : c.Blocks seam.id)
    (hok : c.StoredOk C img st.blocks) (hR : R < records img) :
    Reading c seam C st img (restoreRecord st m R) (R + 1) := by
  have hdm : m.Distinct := fun i j hij => by
    rw [(h.config i).dtc, (h.config j).dtc] at hij
    exact hb.distinct i j hij
  have hdtc : rdBe24 (recAt m.img R 0) (recAt m.img R 1) (recAt m.img R 2) = recDtc img R := by
    rw [h.image]
    rfl
  cases hi : m.slotOf (recDtc img R) with
  | none =>
    rw [restoreRecord_of_none (hdtc ▸ hi)]
    refine { h with
      claims := fun r hr bid hbid => ?_
      entered := fun j hj => ?_ }
    · rcases Nat.lt_succ_iff_lt_or_eq.mp hr with hr | rfl
      · exact h.claims r hr bid hbid
      · obtain ⟨j, hj⟩ := hok.dtc hR hbid
        rw [slotOf_of_distinct hdm ((h.config j).dtc.trans hj)] at hi
        cases hi
    · obtain ⟨r, hr, hd⟩ := h.entered j hj
      exact ⟨r, by omega, hd⟩
  | some i =>
    have hci : (c.slots i).dtc = recDtc img R := (h.config i).dtc.symm.trans (slotOf_eq hi)
    obtain ⟨ht, hnone⟩ := h.takeRecord hb hok hR hci
    have hclaim : ((m.takeRecord i R).slots i).claim = restoredClaim (m.slots i) m.img R := by
      rw [Memory.takeRecord, slots_setSlot_self]
    rw [restoreRecord, hdtc, hi]
    simp only [hclaim, ht.image]
    split
    · rename_i m₂ hload
      split at hload
      · cases hload
      · rename_i hv
        obtain ⟨b, hbc, hload⟩ := Option.bind_eq_some_iff.mp hload
        rw [h.image] at hbc
        obtain ⟨hf, hrec⟩ := blockId_of_restoredClaim (c := c) hv hbc
        obtain ⟨k, stamp, data, next, hk, rfl⟩ := loadSnapshot_eq hload
        have hfi : (c.slots i).freeze ≠ [] := by
          rw [← (h.config i).freeze]
          exact hf
        have hheld : c.Captured C i (st.blocks ((c.slots i).blockId b)) := by
          rw [(h.config i).blockId] at hrec
          obtain ⟨j, -, hd, -, -, hcap⟩ := hok.held hv R hR _ hrec
          obtain rfl : j = i := hb.distinct j i (hd.trans hci.symm)
          exact hcap
        -- the snapshot is there: the slot's claim is readable before its entry is added
        have hok' := ht.readableClaim hnone
        have hslot : (((m.takeRecord i R).setSlot i
            { (m.takeRecord i R).slots i with claimOk := true }).slots i) =
            { (m.takeRecord i R).slots i with claimOk := true } := slots_setSlot_self _ _ _
        have hadd := hok'.toLinked.add (e := ⟨i, stamp, true, b, false, data⟩) hk
          (by rw [hslot]; exact hnone) hfi (fun hd => (by cases hd))
          (fun _ => ⟨hheld, fun _ => by rw [hslot]⟩)
        have hread := hok'.added hadd hci.symm rfl
        refine hread.of_eq (fun j => ?_) rfl rfl rfl
        by_cases hj : j = i
        · subst hj
          simp only [slots_setSlot_self]
          exact .refl _
        · simp only [slots_setSlot_of_ne _ hj, slots_setEntry]
          exact .refl _
    · split
      · exact ht.of_eq (fun i => .refl _) rfl rfl ht.image.symm
      · exact ht

theorem Reading.records (h : Reading c seam C st img m 0) (hb : c.Blocks seam.id)
    (hok : c.StoredOk C img st.blocks) {R : ℕ} (hR : R ≤ records img) :
    Reading c seam C st img ((List.range R).foldl (restoreRecord st) m) R := by
  induction R with
  | zero => exact h
  | succ R ih =>
    rw [List.range_succ, List.foldl_append]
    exact (ih (by omega)).record hb hok (by omega)

end

/-! ## The capacity -/

theorem Linked.dropEntries (h : Linked c seam C m st) (fuel : ℕ) :
    Linked c seam C (dropEntries fuel m) st := by
  induction fuel generalizing m with
  | zero => exact h
  | succ fuel ih =>
    simp only [Memory.dropEntries]
    split
    · exact h
    · split
      · exact h
      · exact ih (h.freeEntry _)

/-- An entry moves to a free place. -/
theorem Linked.move (h : Linked c seam C m st) {k k' : Fin maxEntries} {e : Entry n}
    (he : m.entries k = some e) (hk' : m.entries k' = none) :
    Linked c seam C (((m.setEntry k' (some e)).setEntry k none).setSlot e.slot
      { m.slots e.slot with entry := some k' }) st := by
  have hne : k' ≠ k := by
    rintro rfl
    rw [he] at hk'
    cases hk'
  have hk := (h.entry e.slot k).mpr ⟨e, he, rfl⟩
  have hfree : m.freeEntry e.slot =
      (m.setEntry k none).setSlot e.slot { m.slots e.slot with entry := none } := by
    simp only [Memory.freeEntry, hk]
    rfl
  have hplace : (m.freeEntry e.slot).entries k' = none := by
    rw [hfree, entries_setSlot, entries_setEntry, if_neg hne]
    exact hk'
  have hadd := (h.freeEntry e.slot).add (e := e) hplace (by rw [slots_freeEntry_self])
    (h.frames k e he) (fun hd => by rw [slots_freeEntry_self]; exact h.fresh k e he hd)
    (fun hd => ⟨h.held k e he hd, by rw [slots_freeEntry_self]; exact h.readable k e he hd⟩)
  refine hadd.of_eq ?_ ?_ ?_
  · rw [hfree]
    simp only [setSlot, setEntry, Function.update_self, Function.update_idem]
  · rw [hfree]
    simp only [setSlot, setEntry]
    exact Function.update_comm hne _ _ _
  · rw [hfree]
    rfl

/-- Packing keeps the places between the packed entries and the next one free. -/
theorem Linked.fitEntries (h : Linked c seam C m st) : Linked c seam C m.fitEntries st := by
  have hpack := Loop.foldl_finRange_induction (n := maxEntries) (f := packEntry)
    (P := fun k x => Linked c seam C x.1 st ∧ x.2 ≤ k ∧
      ∀ j : Fin maxEntries, x.2 ≤ j.val → j.val < k → x.1.entries j = none)
    (s := (Memory.dropEntries maxEntries m, 0))
    ⟨h.dropEntries maxEntries, le_rfl, fun j _ hj => by omega⟩ ?_
  · exact hpack.1
  · rintro k ⟨m', next⟩ ⟨hm', hle, hfree⟩
    simp only [packEntry]
    dsimp only at hm' hle hfree
    split
    · rename_i hk
      refine ⟨hm', by omega, fun j hj hjk => ?_⟩
      rcases Nat.lt_succ_iff_lt_or_eq.mp hjk with hjk | hjk
      · exact hfree j hj hjk
      · rw [Fin.ext hjk]
        exact hk
    · rename_i e he
      split
      · rename_i hnext
        split
        · rename_i hne
          have hlt : next < k.val := by omega
          refine ⟨hm'.move he (hfree ⟨next, hnext⟩ le_rfl hlt), by omega, fun j hj hjk => ?_⟩
          dsimp only at hj ⊢
          rw [entries_setSlot, entries_setEntry]
          split
          · rfl
          · rename_i hjk'
            have hjv : j.val ≠ k.val := fun heq => hjk' (Fin.ext heq)
            rw [entries_setEntry, if_neg]
            · exact hfree j (by omega) (by omega)
            · rintro rfl
              dsimp only at hj
              omega
        · rename_i heq
          refine ⟨hm', by omega, fun j hj hjk => ?_⟩
          omega
      · rename_i hnext
        have := k.isLt
        omega

/-! ## A start -/

/-- A slot without two distinct, real blocks. -/
theorem checkBlocks_init (s : Slot) : checkBlocks s.init = (checkBlocks s).init := by
  by_cases h : s.snapId = 0 ∨ s.snapIdB = 0 ∨ s.snapId = s.snapIdB
  · have h' : s.init.snapId = 0 ∨ s.init.snapIdB = 0 ∨ s.init.snapId = s.init.snapIdB := h
    rw [checkBlocks, checkBlocks, if_pos h, if_pos h']
    rfl
  · have h' : ¬(s.init.snapId = 0 ∨ s.init.snapIdB = 0 ∨ s.init.snapId = s.init.snapIdB) := h
    rw [checkBlocks, checkBlocks, if_neg h, if_neg h']

theorem claim_fitEntries (m : Memory n) (i : Fin n) :
    (m.fitEntries.slots i).claim = (m.slots i).claim := by
  rw [(fitted_fitEntries m).slots i]

theorem sameHold_liveBlocks (m : Memory n) (st : Store) (i : Fin n) :
    SameHold (m.slots i) (m.liveBlocks st i) ∧
      ((m.slots i).freeze = [] → m.liveBlocks st i = m.slots i) := by
  simp only [liveBlocks]
  split
  · exact ⟨.refl _, fun _ => rfl⟩
  · rename_i hf
    exact ⟨⟨⟨rfl, rfl, rfl, rfl⟩, rfl, rfl, rfl⟩, fun h => absurd h hf⟩

/-- A block that a start finds live holds more than the mark of a released one. -/
theorem Linked.live_blocks (h : Linked c seam C m st)
    (hdur : ∀ k e, m.entries k = some e → e.durable = true) {i : Fin n} {b : Block}
    (hf : (m.slots i).freeze ≠ []) (hl : (m.liveBlocks st i).live b = true) :
    1 < (st.blocks ((c.slots i).blockId b)).length := by
  simp only [liveBlocks, if_neg hf, decide_eq_true_eq] at hl
  rcases hl with hl | hl
  · simp only [entryBlock] at hl
    split at hl
    · cases hl
    · rename_i k hk
      obtain ⟨e, he, hs⟩ := (h.entry i k).mp hk
      rw [he] at hl
      obtain rfl : e.blk = b := Option.some.inj hl
      subst hs
      obtain ⟨stamp, data, -, hv⟩ := h.held k e he (hdur k e he)
      rw [hv]
      exact length_frame _ _ _
  · rw [Store.get, (h.config i).blockId, List.length_take] at hl
    omega

/-- Dropping and packing leave only entries that were there. -/
theorem durable_fitEntries (h : ∀ k e, m.entries k = some e → e.durable = true) :
    ∀ k e, m.fitEntries.entries k = some e → e.durable = true := by
  intro k e he
  obtain ⟨k', he'⟩ := (fitted_fitEntries m).entries k e he
  exact h k' e he'

/-- What reading the image does. -/
theorem linked_readImage (hb : c.Blocks seam.id) (hs : m.store = some seam)
    (hcfg : ∀ i, SameBlocks (c.slots i) (checkBlocks (m.slots i))) {img : List UInt8}
    (hok : IsImage img → c.StoredOk C img st.blocks) :
    Linked c seam C (m.init.checkSlots.readImage st img) st ∧
      (∀ k e, (m.init.checkSlots.readImage st img).entries k = some e → e.durable = true) ∧
      (IsImage img → Claims c (m.init.checkSlots.readImage st img) img (records img)) := by
  have hfresh : ∀ x, Linked c seam C { m.init.checkSlots with img := x } st := by
    intro x
    have hslot : ∀ i, m.init.checkSlots.slots i = (checkBlocks (m.slots i)).init := fun i =>
      checkBlocks_init _
    refine ⟨fun i => (hcfg i).trans ?_, hs, fun i k => ?_, fun k e he => (by cases he),
      fun k e he => (by cases he), fun k e he => (by cases he), fun k e he => (by cases he),
      fun i b hl => ?_⟩
    · dsimp only
      rw [hslot]
      exact ⟨rfl, rfl, rfl, rfl⟩
    · dsimp only
      rw [hslot]
      exact ⟨fun hk => (by cases hk), fun ⟨e, he, _⟩ => (by cases he)⟩
    · dsimp only at hl
      rw [hslot] at hl
      cases hl
  rw [readImage]
  split
  · rename_i hi
    have h₀ : Reading c seam C st img { m.init.checkSlots with img := img } 0 :=
      ⟨hfresh img, fun k e he => (by cases he), fun r hr => absurd hr (Nat.not_lt_zero r), rfl,
        fun i hne => absurd (congrArg Slot.entry (checkBlocks_init (m.slots i))) hne⟩
    have hread := h₀.records hb (hok hi) le_rfl
    exact ⟨hread.toLinked.fitEntries, durable_fitEntries hread.durable,
      fun _ => hread.claims.of_claim (claim_fitEntries _)⟩
  · rename_i hi
    exact ⟨hfresh [], fun k e he => (by cases he), fun h => absurd h hi⟩

/-- A start on a store whose image is in order. -/
theorem whole_boot (hb : c.Blocks seam.id) (hs : m.store = some seam)
    (hcfg : ∀ i, SameBlocks (c.slots i) (checkBlocks (m.slots i)))
    (hok : IsImage (storedImage st seam) → c.StoredOk C (storedImage st seam) st.blocks) :
    Whole c seam C (Node.boot m st).mem st := by
  have hs' : m.init.store = some seam := hs
  obtain ⟨hlinked, hdur, hclaims⟩ := linked_readImage hb hs hcfg hok
  suffices h : Linked c seam C (m.init.restore st) st ∧ (IsImage (storedImage st seam) →
      Claims c (m.init.restore st) (storedImage st seam) (records (storedImage st seam))) from
    ⟨h.1, h.2, hok⟩
  rw [restore_eq hs']
  revert hlinked hdur hclaims
  generalize storedImage st seam = img
  generalize m.init.checkSlots.readImage st img = m₁
  intro hlinked hdur hclaims
  have hlive : Linked c seam C { m₁ with slots := m₁.liveBlocks st } st := by
    refine hlinked.of_same (fun i => (m₁.sameHold_liveBlocks st i).1) (by rfl) (by rfl) ?_
    intro i b hl
    change (m₁.liveBlocks st i).live b = true at hl
    by_cases hf : (m₁.slots i).freeze = []
    · rw [(m₁.sameHold_liveBlocks st i).2 hf] at hl
      exact .inl hl
    · right
      have hlen := hlinked.live_blocks hdur hf hl
      rw [(hlinked.config i).freeze] at hf
      exact ⟨hf, hlen⟩
  have hclaims' : IsImage img →
      Claims c { m₁ with slots := m₁.liveBlocks st } img (records img) := fun hi =>
    (hclaims hi).of_claim fun i => (m₁.sameHold_liveBlocks st i).1.claim
  dsimp only
  revert hlive hclaims'
  generalize ({ m₁ with slots := m₁.liveBlocks st } : Memory n) = m₂
  intro hlive hclaims'
  split
  · have hend : ∀ m₃ : Memory n, m₃.slots = m₂.slots → m₃.entries = m₂.entries →
        m₃.store = m₂.store → Linked c seam C m₃.cycleEnd st := fun m₃ h₁ h₂ h₃ =>
      (hlive.of_eq h₁ h₂ h₃).cycleEnd
    let off := decide (Has (img.getD 1 0) imgSettingOff)
    refine ⟨(hend { m₂ with cycleActive := true, settingOff := off } rfl rfl rfl).of_eq rfl rfl rfl,
      fun hi => (hclaims' hi).of_claim fun i => ?_⟩
    exact claim_cycleEnd ({ m₂ with cycleActive := true, settingOff := off } : Memory n) i
  · exact ⟨hlive, hclaims'⟩

end Memory

/-! ## Every run -/

/-- What happens to a memory over its lives: an operation of its owner, or a start with a
configuration. -/
inductive Life (n : ℕ) where
  | op (op : Op n)
  | start (m : Memory n)

namespace Node
variable {n : ℕ}
open Memory

def live (x : Node n) : Life n → Node n × Unit
  | .op op => (x.step op, ())
  | .start m => (boot m x.store, ())

/-- A step took `data` as the snapshot of slot `i`, whose failure was stored and whose snapshot was
due. -/
def Takes (e : Trace.Entry (Node n) (Life n) Unit) (i : Fin n) (data : List UInt8) : Prop :=
  ∃ dids, e.event = .op (.capture dids) ∧ (e.before.mem.slots i).snapDue = true ∧
    Has (e.before.mem.slots i).status (pending ||| confirmed) ∧
    data = body dids (e.before.mem.slots i)

/-- Some step of a history took `data` as the snapshot of slot `i`. -/
def Took (hist : List (Trace.Entry (Node n) (Life n) Unit)) (i : Fin n) (data : List UInt8) : Prop :=
  ∃ e ∈ hist, Takes e i data

/-- The blocks of a DTC that keeps a snapshot are no other DTC's. -/
def Separate (m : Memory n) : Prop :=
  ∀ i j b b', (checkBlocks (m.slots i)).freeze ≠ [] →
    (m.slots i).blockId b = (m.slots j).blockId b' → i = j

/-- The configurations have the same DTCs, snapshots and blocks; the capacity and all else may
differ. -/
structure KeepsBlocks (m m' : Memory n) : Prop where
  store : m'.store = m.store
  slots : ∀ i, SameBlocks (m.slots i) (m'.slots i)

/-- The store holds no image, or one of the format before this one with one record for a DTC. -/
def Earlier (img : List UInt8) : Prop :=
  IsImage img → img.getD 0 0 = imageV4 ∧
    ∀ r < records img, ∀ r' < records img, recDtc img r = recDtc img r' → r = r'

section
variable {m : Memory n} {seam : Seam}

theorem sameBlocks_checkBlocks {s s' : Slot} (h : SameBlocks s s') :
    SameBlocks (checkBlocks s) (checkBlocks s') := by
  by_cases hs : s.snapId = 0 ∨ s.snapIdB = 0 ∨ s.snapId = s.snapIdB
  · have hs' : s'.snapId = 0 ∨ s'.snapIdB = 0 ∨ s'.snapId = s'.snapIdB := by
      rw [h.snapId, h.snapIdB]
      exact hs
    rw [checkBlocks, checkBlocks, if_pos hs, if_pos hs']
    exact ⟨h.dtc, h.snapId, h.snapIdB, rfl⟩
  · have hs' : ¬(s'.snapId = 0 ∨ s'.snapIdB = 0 ∨ s'.snapId = s'.snapIdB) := by
      rw [h.snapId, h.snapIdB]
      exact hs
    rw [checkBlocks, checkBlocks, if_neg hs, if_neg hs']
    exact h

theorem blockId_checkBlocks (s : Slot) (b : Block) : (checkBlocks s).blockId b = s.blockId b := by
  simp only [checkBlocks]
  split
  · cases b <;> rfl
  · rfl

theorem blocks_checkSlots (hc : m.Configured) (hp : Separate m) (hs : m.store = some seam) :
    m.checkSlots.Blocks seam.id where
  fits := hc.fits
  distinct i j hij := hc.distinct i j (by simpa [checkSlots] using hij)
  narrow i := by
    have := hc.narrow i
    simpa [checkSlots] using this
  image i b := by
    have := hc.apart seam hs i b
    simpa [checkSlots, blockId_checkBlocks] using this
  two i hf := by
    simp only [checkSlots, checkBlocks] at hf ⊢
    split at hf
    · exact absurd rfl hf
    · rename_i hno
      rw [if_neg hno]
      exact fun heq => hno (.inr (.inr heq))
  apart i j b b' hf heq := by
    simp only [checkSlots, blockId_checkBlocks] at hf heq
    exact hp i j b b' hf heq

/-- A checked configuration is not changed by another check. -/
theorem sameBlocks_check {s s' : Slot} (h : SameBlocks (checkBlocks s) s') :
    SameBlocks (checkBlocks s) (checkBlocks s') := by
  have := sameBlocks_checkBlocks h
  have hidem : checkBlocks (checkBlocks s) = checkBlocks s := by
    simp only [checkBlocks]
    split
    · simp
    · rfl
  rwa [hidem] at this

/-- One step respects the claims and keeps the invariant. -/
theorem whole_live (hb : m.checkSlots.Blocks seam.id) (hs : m.store = some seam) {x : Node n}
    {hist : List (Trace.Entry (Node n) (Life n) Unit)}
    (h : Whole m.checkSlots seam (Took hist) x.mem x.store) (e : Life n)
    (he : ∀ m', e = .start m' → KeepsBlocks m m') :
    Whole m.checkSlots seam (Took (hist ++ [Trace.entry live x e])) (x.live e).1.mem
        (x.live e).1.store ∧
      SafeTo m.checkSlots seam.id (Took hist) x.store (x.live e).1.store := by
  have hmono : ∀ i d, Took hist i d → Took (hist ++ [Trace.entry live x e]) i d := by
    rintro i d ⟨y, hy, ht⟩
    exact ⟨y, List.mem_append_left _ hy, ht⟩
  cases e with
  | start m' =>
    have hk := he m' rfl
    refine ⟨whole_boot hb (hk.store.trans hs) (fun i => ?_) (fun hi => ?_), .refl _⟩
    · exact sameBlocks_checkBlocks (hk.slots i)
    · exact (h.stored hi).mono hmono
  | op op =>
    cases op with
    | consume i r =>
      refine ⟨(h.of_frames (sameFrame_setSlot ?_) rfl rfl).mono hmono, .refl _⟩
      exact .consume _ _ _ _
    | capture dids =>
      refine ⟨(h.mono hmono).capture dids fun i hdue hp => ?_, .refl _⟩
      refine ⟨_, List.mem_append_right _ (List.mem_singleton_self _), dids, rfl, hdue, hp, ?_⟩
      exact (body_sameBlocks (h.config i) dids).symm
    | cycleStart => exact ⟨h.cycleStart.mono hmono, .refl _⟩
    | cycleEnd => exact ⟨h.cycleEnd.mono hmono, .refl _⟩
    | endCycleAfter now grace =>
      refine ⟨?_, .refl _⟩
      simp only [live, step, endCycleAfter]
      split
      · exact h.mono hmono
      · exact (h.mono hmono).of_eq rfl rfl rfl
    | setSetting on => exact ⟨(h.setSetting on).mono hmono, .refl _⟩
    | persist now flush =>
      obtain ⟨hw, hsafe⟩ := h.persist hb now flush
      exact ⟨hw.mono hmono, hsafe⟩
    | clear group =>
      obtain ⟨hw, hsafe⟩ := h.clear hb group
      exact ⟨hw.mono hmono, hsafe⟩
    | reset =>
      refine ⟨whole_boot hb h.store (fun i => ?_) (fun hi => ?_), .refl _⟩
      · exact sameBlocks_check (h.config i)
      · exact (h.stored hi).mono hmono

end

/-- A DTC with a snapshot of one DID. -/
def snapFault : Memory 1 :=
  { oneFault with
    slots := fun i => { oneFault.slots i with
      freeze := [(0xF400, 2)], snapId := 0x10, snapIdB := 0x11 }
    cap := 1 }

theorem configured_snapFault : snapFault.Configured where
  fits := by decide
  distinct i j _ := Subsingleton.elim i j
  narrow _ := (by decide : (0x523000 : UInt32) < 0x1000000)
  apart seam hs _ b := by
    cases hs
    cases b with
    | A => exact (by decide : (0x10 : UInt16) ≠ 1)
    | B => exact (by decide : (0x11 : UInt16) ≠ 1)

theorem separate_snapFault : Separate snapFault := fun i j _ _ _ _ => Subsingleton.elim i j

/-- A failure, its snapshot and its image, then a start with no room for it and another image. -/
def snapLife : List (Life 1) :=
  [.op .cycleStart, .op (.consume 0 ⟨0, true, 1, 1⟩), .op (.capture [(0xF400, [7, 8])]),
    .op (.persist 0 false), .start { snapFault with cap := 0 }, .op (.persist 0 true)]

end Node

end BloblyEmb.Fault
