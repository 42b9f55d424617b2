import Mathlib.Tactic.IntervalCases
import BloblyEmb.Fault.Quota

/-!
# The books of what is written

Each write that the store takes is paid for: the image by a change that it shows, a snapshot block by
a snapshot taken, and the mark of a released block by the snapshot that was in it. While nothing that
the image shows has changed, the image in the store is the memory's own but for occurrences, so that
only a flush writes it.
-/
namespace BloblyEmb.Fault
namespace Memory
variable {n : ℕ} {c m m' : Memory n} {seam : Seam} {C : Fin n → List UInt8 → Prop} {st : Store}
  {waiting : Fin n → ℕ} {e : ℕ} {tests fails snaps : Fin n → ℕ}

/-! ## Capturing -/

/-- The entry of a slot. -/
def held (m : Memory n) (i : Fin n) : Option (Entry n) := (m.slots i).entry.bind m.entries

theorem victim_spec {i : Fin n} {k : Fin maxEntries} {e : Entry n} (h : m.victim i = some (k, e)) :
    m.entries k = some e ∧ k.val < m.cap ∧ ¬m.Protected i e := by
  have hfold : ∀ b ∈ m.victim i, m.entries b.1 = some b.2 ∧ b.1.val < m.cap ∧
      ¬m.Protected i b.2 := by
    refine List.foldlRecOn (motive := fun best : Option (Fin maxEntries × Entry n) =>
      ∀ b ∈ best, m.entries b.1 = some b.2 ∧ b.1.val < m.cap ∧ ¬m.Protected i b.2) _ _
      (by simp) ?_
    intro best hbest k' hk'
    have hcap : k'.val < m.cap := by simpa [places] using hk'
    split
    · exact hbest
    · rename_i e' he'
      split
      · exact hbest
      · rename_i hfree
        have hnew : ∀ b ∈ some (k', e'), m.entries b.1 = some b.2 ∧ b.1.val < m.cap ∧
            ¬m.Protected i b.2 := by
          intro b hb
          obtain rfl := Option.mem_some.mp hb
          exact ⟨he', hcap, hfree⟩
        split
        · exact hnew
        · split
          · exact hnew
          · exact hbest
  exact hfold (k, e) h

/-- How taking the due snapshot of slot `i` leaves the entries: as they are, or with a new one that
is not written yet, in a free place or in that of a DTC that did not fail in this cycle. -/
inductive Captures (m m' : Memory n) (i : Fin n) : Prop
  | same (slots : ∀ j, (m'.slots j).entry = (m.slots j).entry) (entries : m'.entries = m.entries)
  | free (k : Fin maxEntries) (e : Entry n) (place : k.val < m.cap) (due : (m.slots i).snapDue = true)
    (bare : (m.slots i).entry = none) (fresh : e.durable = false)
    (entries : m'.entries = Function.update m.entries k (some e))
    (own : (m'.slots i).entry = some k) (empty : m.entries k = none)
    (others : ∀ j, j ≠ i → (m'.slots j).entry = (m.slots j).entry)
  | displaced (k : Fin maxEntries) (e v : Entry n) (place : k.val < m.cap)
    (due : (m.slots i).snapDue = true) (bare : (m.slots i).entry = none) (fresh : e.durable = false)
    (entries : m'.entries = Function.update m.entries k (some e))
    (own : (m'.slots i).entry = some k) (victim : m.entries k = some v)
    (cold : ¬Has (m.slots v.slot).status testFailedThisCycle)
    (took : e.tookClaim = (((m.slots v.slot).claim.isSome && (m.slots v.slot).claimOk) ||
      v.tookClaim))
    (dropped : (m'.slots v.slot).entry = none)
    (others : ∀ j, j ≠ i → j ≠ v.slot → (m'.slots j).entry = (m.slots j).entry)

theorem entries_captured (m : Memory n) (i : Fin n) (k : Fin maxEntries) (took : Bool)
    (data : List UInt8) : ∃ e : Entry n, e.durable = false ∧ e.tookClaim = took ∧
      ((m.place i k took).setEntry k (((m.place i k took).entries k).map fun e =>
        { e with data := data })).entries = Function.update m.entries k (some e) := by
  refine ⟨⟨i, m.nextStamp, false, if (m.slots i).claim = some .A then .B else .A, took, data⟩, rfl,
    rfl, ?_⟩
  simp only [Memory.place, setEntry, setSlot, Function.update_self, Option.map_some,
    Function.update_idem]

theorem captureSlot_cases (h : Linked c seam C m st) (dids : List (UInt16 × List UInt8))
    (i : Fin n) : (captureSlot dids m i).boundaryOff = m.boundaryOff ∧
      (captureSlot dids m i).cap = m.cap ∧ ((captureSlot dids m i).slots i).snapDue = false ∧
      Captures m (captureSlot dids m i) i := by
  simp only [captureSlot]
  split
  · rename_i hdue
    exact ⟨rfl, rfl, by simpa using hdue, .same (fun _ => rfl) rfl⟩
  · rename_i hdue
    have hdue' : (m.slots i).snapDue = true := by simpa using hdue
    have hslots : ∀ j, ((m.setSlot i { m.slots i with snapDue := false }).slots j).entry =
        (m.slots j).entry := by
      intro j
      rw [slots_setSlot]
      split
      · rename_i hj
        rw [hj]
      · rfl
    have hsame : Captures m (m.setSlot i { m.slots i with snapDue := false }) i :=
      .same hslots rfl
    split
    · exact ⟨rfl, rfl, by rw [slots_setSlot_self], hsame⟩
    · rename_i hno
      simp only [not_or, not_not, slots_setSlot_self] at hno
      obtain ⟨-, hentry, -⟩ := hno
      split
      · exact ⟨rfl, rfl, by rw [slots_setSlot_self], hsame⟩
      · rename_i k m₂ ha
        simp only [allocate] at ha
        split at ha
        · rename_i k' hfind
          simp only [Option.some.injEq, Prod.mk.injEq] at ha
          obtain ⟨rfl, rfl⟩ := ha
          have hplace : k'.val < m.cap := by
            have hmem := List.mem_of_find?_eq_some hfind
            simp only [places, List.mem_filter] at hmem
            exact of_decide_eq_true hmem.2
          have hk : m.entries k' = none := by simpa [setSlot] using List.find?_some hfind
          obtain ⟨e, hd, -, hent⟩ := entries_captured
            (m.setSlot i { m.slots i with snapDue := false }) i k' false
            (body dids ((m.setSlot i { m.slots i with snapDue := false }).slots i))
          refine ⟨rfl, rfl, ?_, .free k' e hplace hdue' hentry hd hent ?_ hk fun j hj => ?_⟩
          · rw [slots_setEntry, slots_place_self, slots_setSlot_self]
          · rw [slots_setEntry, slots_place_self]
          · rw [slots_setEntry, slots_place_of_ne _ hj]
            exact hslots j
        · split at ha
          · cases ha
          · rename_i k' v hv
            simp only [Option.some.injEq, Prod.mk.injEq] at ha
            obtain ⟨rfl, rfl⟩ := ha
            obtain ⟨hk, hplace, hfree⟩ := victim_spec hv
            have hne : i ≠ v.slot := by
              rintro rfl
              have := (h.entry v.slot k').mpr ⟨v, hk, rfl⟩
              rw [hentry] at this
              cases this
            have hvslot : (m.setSlot i { m.slots i with snapDue := false }).slots v.slot =
                m.slots v.slot := slots_setSlot_of_ne _ hne.symm _
            obtain ⟨e, hd, ht, hent⟩ := entries_captured
              ({ (m.setSlot i { m.slots i with snapDue := false }).setSlot v.slot
                { (m.setSlot i { m.slots i with snapDue := false }).slots v.slot with
                  entry := none } with displaced := m.displaced + 1 } : Memory n) i k'
              (((m.slots v.slot).claim.isSome && (m.slots v.slot).claimOk) || v.tookClaim)
              (body dids ((m.setSlot i { m.slots i with snapDue := false }).slots i))
            simp only [hvslot] at hent ⊢
            refine ⟨rfl, rfl, ?_, .displaced k' e v hplace hdue' hentry hd hent ?_ hk
              (fun hc => hfree (.inl (by rw [hvslot]; exact hc))) ht ?_ fun j hj hjv => ?_⟩
            · rw [slots_setEntry, slots_place_self]
              simp [hne]
            · rw [slots_setEntry, slots_place_self]
            · rw [slots_setEntry, slots_place_of_ne _ hne.symm]
              simp
            · rw [slots_setEntry, slots_place_of_ne _ hj]
              simp [hjv, hj]

/-- A snapshot that took a stored one's place is not written yet. -/
def Displacing (m : Memory n) : Prop :=
  ∃ k e, k.val < m.cap ∧ m.entries k = some e ∧ e.durable = false ∧ e.tookClaim = true

/-- What taking a snapshot does to what is due and to what is written. -/
structure CaptureStep (m m' : Memory n) : Prop where
  waits : ∀ j, m'.Waits j → m.Waits j
  due : ∀ j, (m'.slots j).snapDue = true → (m.slots j).snapDue = true ∧ (m'.slots j).entry = none
  durable : ∀ j, m'.durableBlock j = m.durableBlock j ∨
    (m'.durableBlock j = none ∧ ¬Has (m.slots j).status testFailedThisCycle ∧
      ((m.slots j).claim.isSome = true → (m.slots j).claimOk = true → m'.Displacing))
  displacing : m.Displacing → m'.Displacing

theorem Captures.step {i : Fin n} (hc : Captures m m' i) (h : Linked c seam C m st) (ht : m.Tidy)
    (hcap : m'.cap = m.cap) (hi : (m'.slots i).snapDue = false)
    (hdue : ∀ j, j ≠ i → (m'.slots j).snapDue = (m.slots j).snapDue) : CaptureStep m m' := by
  have hdue' : ∀ j, (m'.slots j).snapDue = true → j ≠ i ∧ (m.slots j).snapDue = true := by
    intro j hd
    have hj : j ≠ i := by
      rintro rfl
      rw [hi] at hd
      cases hd
    exact ⟨hj, hdue j hj ▸ hd⟩
  -- a slot whose entry stays where it was, in a place that is not the new one's
  have hstays : ∀ j k (e : Entry n), m'.entries = Function.update m.entries k (some e) →
      (m'.slots j).entry = (m.slots j).entry → (∀ v, m.entries k = some v → v.slot ≠ j) →
      m'.durableBlock j = m.durableBlock j := by
    intro j k e hent hs hk
    simp only [durableBlock, hs]
    cases hx : (m.slots j).entry with
    | none => rfl
    | some k' =>
      obtain ⟨v, hv, hvs⟩ := (h.entry j k').mp hx
      have hne : k' ≠ k := by
        rintro rfl
        exact hk v hv hvs
      simp only [hent, Function.update_of_ne hne]
  have hown : ∀ k (e : Entry n), e.durable = false →
      m'.entries = Function.update m.entries k (some e) → (m'.slots i).entry = some k →
      (m.slots i).entry = none → m'.durableBlock i = m.durableBlock i := by
    intro k e hd hent hs hbare
    simp [durableBlock, hs, hbare, hent, hd]
  cases hc with
  | same hslots hent =>
    have hdb : ∀ j, m'.durableBlock j = m.durableBlock j := fun j =>
      durableBlock_congr (hslots j) hent
    refine ⟨fun j hw => ?_, fun j hd => ⟨(hdue' j hd).2, ?_⟩, fun j => .inl (hdb j), ?_⟩
    · rcases hw with hd | ⟨hne, hn⟩
      · exact .inl (hdue' j hd).2
      · exact .inr ⟨hslots j ▸ hne, hdb j ▸ hn⟩
    · rw [hslots]
      exact ht.due j (hdue' j hd).2
    · rintro ⟨k, e, hk, he, hd, htk⟩
      exact ⟨k, e, hcap ▸ hk, hent ▸ he, hd, htk⟩
  | free k e hplace hdi hbare hd hent hent' hk hother =>
    have hdb : ∀ j, m'.durableBlock j = m.durableBlock j := by
      intro j
      by_cases hj : j = i
      · subst hj
        exact hown k e hd hent hent' hbare
      · refine hstays j k e hent (hother j hj) fun v hv => ?_
        rw [hk] at hv
        cases hv
    refine ⟨fun j hw => ?_, fun j hx => ⟨(hdue' j hx).2, ?_⟩, fun j => .inl (hdb j), ?_⟩
    · by_cases hj : j = i
      · exact .inl (hj ▸ hdi)
      · rcases hw with hx | ⟨hne, hn⟩
        · exact .inl (hdue' j hx).2
        · exact .inr ⟨hother j hj ▸ hne, hdb j ▸ hn⟩
    · rw [hother j (hdue' j hx).1]
      exact ht.due j (hdue' j hx).2
    · rintro ⟨k', e', hk', he', hd', htk⟩
      refine ⟨k', e', hcap ▸ hk', ?_, hd', htk⟩
      rw [hent, Function.update_of_ne]
      · exact he'
      · rintro rfl
        rw [hk] at he'
        cases he'
  | displaced k e v hplace hdi hbare hd hent hent' hk hcold htook hdrop hother =>
    have hv := (h.entry v.slot k).mpr ⟨v, hk, rfl⟩
    have hdisp : e.tookClaim = true → m'.Displacing := fun htk =>
      ⟨k, e, hcap ▸ hplace, by rw [hent, Function.update_self], hd, htk⟩
    have hdb : ∀ j, j ≠ v.slot → m'.durableBlock j = m.durableBlock j := by
      intro j hjv
      by_cases hj : j = i
      · subst hj
        exact hown k e hd hent hent' hbare
      · refine hstays j k e hent (hother j hj hjv) fun v' hv' => ?_
        rw [hk] at hv'
        cases hv'
        exact hjv.symm
    refine ⟨fun j hw => ?_, fun j hx => ⟨(hdue' j hx).2, ?_⟩, fun j => ?_, ?_⟩
    · by_cases hj : j = i
      · exact .inl (hj ▸ hdi)
      · rcases hw with hx | ⟨hne, hn⟩
        · exact .inl (hdue' j hx).2
        · have hjv : j ≠ v.slot := by
            rintro rfl
            exact hne hdrop
          exact .inr ⟨hother j hj hjv ▸ hne, hdb j hjv ▸ hn⟩
    · by_cases hjv : j = v.slot
      · rw [hjv]
        exact hdrop
      · rw [hother j (hdue' j hx).1 hjv]
        exact ht.due j (hdue' j hx).2
    · by_cases hjv : j = v.slot
      · right
        subst hjv
        refine ⟨durableBlock_none hdrop, hcold, fun h₁ h₂ => hdisp ?_⟩
        rw [htook, h₁, h₂]
        rfl
      · exact .inl (hdb j hjv)
    · rintro ⟨k', e', hk', he', hd', htk⟩
      by_cases hkk : k' = k
      · subst hkk
        rw [hk] at he'
        cases he'
        exact hdisp (by rw [htook, htk, Bool.or_true])
      · exact ⟨k', e', hcap ▸ hk', by rw [hent, Function.update_of_ne hkk]; exact he', hd', htk⟩

theorem captureStep (h : Linked c seam C m st) (ht : m.Tidy) (dids : List (UInt16 × List UInt8))
    (i : Fin n) : CaptureStep m (captureSlot dids m i) := by
  obtain ⟨-, hcap, hi, hc⟩ := captureSlot_cases h dids i
  exact hc.step h ht hcap hi fun j hj => snapDue_captureSlot m dids hj

theorem gist_taken {s s' : Slot} (h : Taken s s') : s'.gist = s.gist := by
  rw [h.same]
  rfl

/-- Taking a snapshot gives nothing back. -/
theorem tidy_captureSlot (h : Linked c seam C m st) (ht : m.Tidy)
    (dids : List (UInt16 × List UInt8)) (i : Fin n) :
    (captureSlot dids m i).Tidy ∧ Costs m (captureSlot dids m i) 0 := by
  have hstep := captureStep h ht dids i
  have hb := (captureSlot_cases h dids i).1
  obtain ⟨htaken, hframe⟩ := m.taken_captureSlot dids i
  have hmono : ∀ a h w w' b b' : Bool, (w' = true → w = true) → (b' = b ∨ h = false) →
      needOf a h w' b' ≤ needOf a h w b := by
    decide
  have hact := hframe.cycleActive
  refine ⟨⟨fun hx => ?_, fun j hd => (hstep.due j hd).2, fun ha j => ?_⟩,
    ⟨fun j => ?_, fun j => ?_, fun j => ?_⟩⟩
  · rw [hframe.settingOff]
    exact ht.off (hb ▸ hx)
  · have := ht.marked (hact ▸ ha) j
    rw [(htaken j).same]
    exact ⟨this.tested, this.failed⟩
  · simp only [untested, hact]
    rw [(htaken j).same]
    exact le_rfl
  · simp only [unfailed, hact]
    rw [(htaken j).same]
    exact le_rfl
  · have hhot : (captureSlot dids m i).Hot j ↔ m.Hot j := by
      simp only [Hot, hb, (htaken j).status]
    simp only [need, hact, decide_eq_decide.mpr hhot]
    apply hmono
    · simpa using hstep.waits j
    · rcases hstep.durable j with hd | ⟨-, hcold, -⟩
      · rw [hd]
        exact .inl rfl
      · right
        rw [decide_eq_false_iff_not]
        exact fun hx => hcold hx.1

/-! ## The image in the store -/

/-- The image in the store is that of this memory, but for occurrences, for snapshots that are not
written yet, and for stored ones that such a snapshot displaced. -/
structure Shadow (m : Memory n) : Prop where
  imaged : ∃ m₁ : Memory n, m.img = m₁.image none ∧ m.cycleActive = m₁.cycleActive ∧
    m.settingOff = m₁.settingOff ∧ (∀ i, (m.slots i).gist = (m₁.slots i).gist) ∧
    (¬m.Displacing → ∀ i, m.durableBlock i = m₁.durableBlock i)
  claimed : ∀ i, m.durableBlock i ≠ none →
    (m.slots i).claim.isSome = true ∧ (m.slots i).claimOk = true

/-- Nothing that the image shows has changed. -/
theorem Shadow.of_same (h : Shadow m) (himg : m'.img = m.img)
    (ha : m'.cycleActive = m.cycleActive) (ho : m'.settingOff = m.settingOff)
    (hg : ∀ i, (m'.slots i).gist = (m.slots i).gist) (hd : m.Displacing → m'.Displacing)
    (hdb : ∀ i, m'.durableBlock i = m.durableBlock i ∨
      (m'.durableBlock i = none ∧ (m.durableBlock i ≠ none → m'.Displacing)))
    (hc : ∀ i, (m'.slots i).claim = (m.slots i).claim ∧
      (m'.slots i).claimOk = (m.slots i).claimOk) : Shadow m' where
  imaged := by
    obtain ⟨m₁, h₁, h₂, h₃, h₄, h₅⟩ := h.imaged
    refine ⟨m₁, himg.trans h₁, ha.trans h₂, ho.trans h₃, fun i => (hg i).trans (h₄ i),
      fun hno i => ?_⟩
    rw [← h₅ (fun hx => hno (hd hx)) i]
    rcases hdb i with heq | ⟨hn, hx⟩
    · exact heq
    · by_cases hm : m.durableBlock i = none
      · rw [hn, hm]
      · exact absurd (hx hm) hno
  claimed i hne := by
    rw [(hc i).1, (hc i).2]
    apply h.claimed
    rcases hdb i with heq | ⟨hn, -⟩
    · exact heq ▸ hne
    · exact absurd hn hne

/-- A memory whose image the store has just taken. -/
theorem Shadow.of_image (himg : m.img = m.image none)
    (hc : ∀ i, m.durableBlock i ≠ none →
      (m.slots i).claim.isSome = true ∧ (m.slots i).claimOk = true) : Shadow m :=
  ⟨⟨m, himg, rfl, rfl, fun _ => rfl, fun _ _ => rfl⟩, hc⟩

theorem getD_record (d : UInt32) (f a b : UInt8) (o o' i : UInt16) {k : ℕ} (hk : k < imageRec)
    (h₆ : k ≠ 6) (h₇ : k ≠ 7) :
    (be24 d ++ [f, a, b] ++ be16 o ++ be16 i).getD k 0 =
      (be24 d ++ [f, a, b] ++ be16 o' ++ be16 i).getD k 0 := by
  simp only [imageRec] at hk
  interval_cases k
  all_goals first | rfl | contradiction

/-- Such an image differs from the built one in occurrences alone. -/
theorem Shadow.onlyOcc (h : Shadow m) (hno : ¬m.Displacing) : onlyOcc m.img (m.image none) := by
  obtain ⟨m₁, himg, ha, ho, hg, hdb⟩ := h.imaged
  rw [himg]
  refine ⟨by rw [length_image, length_image], fun b hb hne => ?_⟩
  rw [length_image] at hb
  by_cases h₂ : b < 2
  · exfalso
    apply hne
    have hget : ∀ x : Memory n, (x.image none).getD b 0 = x.header.getD b 0 := by
      intro x
      rw [image_eq, List.getD_eq_getElem?_getD, List.getElem?_append_left (by simpa [header] using h₂),
        List.getD_eq_getElem?_getD]
    rw [hget, hget]
    simp only [header, ha, ho]
  · obtain ⟨i, k, hk, rfl⟩ : ∃ (i : Fin n) (k : ℕ), k < imageRec ∧ b = 2 + i.val * imageRec + k := by
      have hi : (b - 2) / imageRec < n := by
        rw [Nat.div_lt_iff_lt_mul (by decide)]
        omega
      refine ⟨⟨(b - 2) / imageRec, hi⟩, (b - 2) % imageRec, Nat.mod_lt _ (by decide), ?_⟩
      have := Nat.div_add_mod' (b - 2) imageRec
      dsimp only
      omega
    refine ⟨by omega, ?_⟩
    have hmod : (2 + i.val * imageRec + k - 2) % imageRec = k := by
      rw [show 2 + i.val * imageRec + k - 2 = k + i.val * imageRec by omega,
        Nat.add_mul_mod_self_right, Nat.mod_eq_of_lt hk]
    rw [hmod]
    have hrec : ∀ x : Memory n, (x.image none).getD (2 + i.val * imageRec + k) 0 =
        (x.record i).getD k 0 := fun x => recAt_image x none i hk
    rw [hrec, hrec] at hne
    have hgi := hg i
    simp only [Slot.gist, Prod.mk.injEq] at hgi
    obtain ⟨h₁, h₂, h₃, h₄, h₅, h₆, h₇, h₈⟩ := hgi
    have hflag : m.flagByte i = m₁.flagByte i := by
      simp only [flagByte, h₄, h₅, h₆, hdb hno i]
    have hid : m.claimedId i = m₁.claimedId i := by
      simp only [claimedId, hdb hno i]
      cases m₁.durableBlock i with
      | none => rfl
      | some b =>
        cases b with
        | A => exact h₂
        | B => exact h₃
    by_contra hno'
    simp only [not_or] at hno'
    apply hne
    simp only [record, h₁, hflag, h₇, h₈, hid]
    exact getD_record _ _ _ _ _ _ _ hk hno'.1 hno'.2

/-! ## What has been written -/

/-- The writes of the image, of snapshots, and of marks of released blocks that a store took. -/
def images (id : UInt16) (st : Store) : ℕ := st.log.countP fun w => w.1 = id
def snapshots (id : UInt16) (st : Store) : ℕ := st.log.countP fun w => w.1 ≠ id ∧ w.2 ≠ [0]
def released (id : UInt16) (st : Store) : ℕ := st.log.countP fun w => w.1 ≠ id ∧ w.2 = [0]

/-- Whether block `b` of slot `i` is live in the store. -/
def holds (c : Memory n) (st : Store) (i : Fin n) (b : Block) : ℕ :=
  if (c.slots i).freeze ≠ [] ∧ 1 < (st.blocks ((c.slots i).blockId b)).length then 1 else 0

/-- The blocks that are live in the store. -/
def holding (c : Memory n) (st : Store) : ℕ := ∑ i, (c.holds st i .A + c.holds st i .B)

/-- The blocks that are live once a value is in the store. -/
theorem holding_put {i : Fin n} {b : Block} {v : List UInt8} (hb : c.Blocks seam.id)
    (hf : (c.slots i).freeze ≠ []) {st' : Store}
    (hst : st'.blocks = Function.update st.blocks ((c.slots i).blockId b) v) :
    c.holding st' + c.holds st i b = c.holding st + if 1 < v.length then 1 else 0 := by
  have hown : c.holds st' i b = if 1 < v.length then 1 else 0 := by
    simp only [holds, hst, Function.update_self, ne_eq, hf, not_false_eq_true, true_and]
  have hother : ∀ j b', ¬(i = j ∧ b = b') → c.holds st' j b' = c.holds st j b' := by
    intro j b' hne
    simp only [holds, hst]
    rw [Function.update_of_ne]
    intro heq
    exact hne (hb.inj hf heq.symm)
  simp only [holding]
  rw [← Finset.add_sum_erase _ _ (Finset.mem_univ i), ← Finset.add_sum_erase _ _ (Finset.mem_univ i)]
  have hrest : ∑ j ∈ Finset.univ.erase i, (c.holds st' j .A + c.holds st' j .B) =
      ∑ j ∈ Finset.univ.erase i, (c.holds st j .A + c.holds st j .B) := by
    refine Finset.sum_congr rfl fun j hj => ?_
    have hne : i ≠ j := (Finset.ne_of_mem_erase hj).symm
    rw [hother j .A (fun hx => hne hx.1), hother j .B (fun hx => hne hx.1)]
  rw [hrest]
  cases b with
  | A =>
    rw [hown, hother i .B (fun hx => by cases hx.2)]
    omega
  | B =>
    rw [hown, hother i .A (fun hx => by cases hx.2)]
    omega

theorem holding_congr (c : Memory n) (st st' : Store) (h : ∀ i b, st'.blocks ((c.slots i).blockId b) =
    st.blocks ((c.slots i).blockId b)) : c.holding st' = c.holding st := by
  simp only [holding, holds, h]

/-- The number of writes of each kind at the beginning; every block that is live then may be
released. -/
structure Opening where
  images : ℕ
  snapshots : ℕ
  released : ℕ

/-- The books of what has been written, when the cycles and clears so far gave each DTC `given` first
tests, first failures and snapshots, and `paid` writes of the image are paid for besides. Of all that
is paid for, `due` may still be written; when nothing is due, the image in the store is `calm`. -/
structure Ledger (c : Memory n) (seam : Seam) (waiting : Fin n → ℕ) (open' : Opening)
    (given paid : ℕ) (m : Memory n) (st : Store) (calm : Prop) (tests fails snaps : Fin n → ℕ)
    (due : ℕ) : Prop where
  quota : Quota c waiting m given tests fails snaps
  images : images seam.id st + due ≤
    open'.images + paid + (∑ i, tests i + ∑ i, fails i) + ∑ i, snaps i
  snapshots : snapshots seam.id st = open'.snapshots + ∑ i, snaps i
  released : released seam.id st + c.holding st ≤ open'.released + ∑ i, snaps i
  calm : due = 0 → calm

def Budget (c : Memory n) (seam : Seam) (waiting : Fin n → ℕ) (open' : Opening) (given paid : ℕ)
    (m : Memory n) (st : Store) (calm : Prop) : Prop :=
  ∃ tests fails snaps due, Ledger c seam waiting open' given paid m st calm tests fails snaps due

/-- The memory and its store keep together, and the memory to itself. -/
structure InOrder (c : Memory n) (seam : Seam) (m : Memory n) (st : Store) : Prop where
  whole : Whole c seam (fun _ _ => True) m st
  tidy : m.Tidy

namespace Budget
variable {open' : Opening} {given paid k : ℕ} {calm calm' : Prop} {st' : Store}

theorem imp (h : Budget c seam waiting open' given paid m st calm) (hc : calm → calm') :
    Budget c seam waiting open' given paid m st calm' := by
  obtain ⟨tests, fails, snaps, due, hl⟩ := h
  exact ⟨tests, fails, snaps, due, hl.quota, hl.images, hl.snapshots, hl.released, hc ∘ hl.calm⟩

theorem cast {given' paid' : ℕ} (h : Budget c seam waiting open' given paid m st calm)
    (hg : given' = given) (hp : paid' = paid) :
    Budget c seam waiting open' given' paid' m st calm := by
  rwa [hg, hp]

theorem pay (h : Budget c seam waiting open' given paid m st calm) (k : ℕ) :
    Budget c seam waiting open' given (paid + k) m st calm := by
  obtain ⟨tests, fails, snaps, due, hl⟩ := h
  have := hl.images
  exact ⟨tests, fails, snaps, due, hl.quota, by omega, hl.snapshots, hl.released, hl.calm⟩

/-- A step that writes nothing and leaves the image in the store as good as it was. -/
theorem move (h : Budget c seam waiting open' given paid m st calm) (hc : Costs m m' k)
    (hcalm : calm → calm') : Budget c seam waiting open' (given + k) paid m' st calm' := by
  obtain ⟨tests, fails, snaps, due, hl⟩ := h
  exact ⟨tests, fails, snaps, due, hl.quota.of_costs hc, hl.images, hl.snapshots, hl.released,
    hcalm ∘ hl.calm⟩

/-- A step that changes what the image shows, and is paid for. -/
theorem change (h : Budget c seam waiting open' given paid m st calm) (hc : Costs m m' k) :
    Budget c seam waiting open' (given + k) (paid + 1) m' st calm' := by
  obtain ⟨tests, fails, snaps, due, hl⟩ := h
  have := hl.images
  exact ⟨tests, fails, snaps, due + 1, hl.quota.of_costs hc, by omega, hl.snapshots, hl.released,
    fun h0 => by cases h0⟩

/-- A store that took nothing. -/
theorem refused (h : Budget c seam waiting open' given paid m st calm)
    (hlog : st'.log = st.log) (hblk : st'.blocks = st.blocks) :
    Budget c seam waiting open' given paid m st' calm := by
  obtain ⟨tests, fails, snaps, due, hl⟩ := h
  refine ⟨tests, fails, snaps, due, hl.quota, ?_, ?_, ?_, hl.calm⟩
  · simp only [Memory.images, hlog]
    exact hl.images
  · simp only [Memory.snapshots, hlog]
    exact hl.snapshots
  · simp only [Memory.released, hlog]
    rw [holding_congr c st st' fun i b => by rw [hblk]]
    exact hl.released

/-- The image is written: either something was due, or it is paid for now. -/
theorem image (h : Budget c seam waiting open' given paid m st calm) (hb : c.Blocks seam.id)
    {v : List UInt8} (hlog : st'.log = (seam.id, v) :: st.log)
    (hblk : st'.blocks = Function.update st.blocks seam.id v) (hc : Costs m m' 0)
    (hpaid : calm → k = 1) (hcalm : calm') :
    Budget c seam waiting open' given (paid + k) m' st' calm' := by
  obtain ⟨tests, fails, snaps, due, hl⟩ := h
  have hdue : 1 ≤ due + k := by
    by_cases h0 : due = 0
    · have := hpaid (hl.calm h0)
      omega
    · omega
  refine ⟨tests, fails, snaps, 0, hl.quota.of_costs hc, ?_, ?_, ?_, fun _ => hcalm⟩
  · have := hl.images
    simp only [Memory.images, hlog, List.countP_cons, decide_true, if_true] at this ⊢
    omega
  · have := hl.snapshots
    simpa [Memory.snapshots, hlog, List.countP_cons] using this
  · have hhold := holding_congr c st st' fun i b => by
      rw [hblk, Function.update_of_ne (hb.image i b)]
    have := hl.released
    rw [hhold]
    simpa [Memory.released, hlog, List.countP_cons] using this

/-- A block that was live is released. -/
theorem release (h : Budget c seam waiting open' given paid m st calm) (hb : c.Blocks seam.id)
    {i : Fin n} {b : Block} (hf : (c.slots i).freeze ≠ [])
    (hlive : 1 < (st.blocks ((c.slots i).blockId b)).length)
    (hlog : st'.log = ((c.slots i).blockId b, [0]) :: st.log)
    (hblk : st'.blocks = Function.update st.blocks ((c.slots i).blockId b) [0])
    (hc : Costs m m' 0) (hcalm : calm → calm') :
    Budget c seam waiting open' given paid m' st' calm' := by
  obtain ⟨tests, fails, snaps, due, hl⟩ := h
  have hid := hb.image i b
  refine ⟨tests, fails, snaps, due, hl.quota.of_costs hc, ?_, ?_, ?_, hcalm ∘ hl.calm⟩
  · have := hl.images
    simpa [Memory.images, hlog, List.countP_cons, hid] using this
  · have := hl.snapshots
    simpa [Memory.snapshots, hlog, List.countP_cons] using this
  · have hhold := holding_put hb hf hblk
    have hone : c.holds st i b = 1 := if_pos ⟨hf, hlive⟩
    rw [hone] at hhold
    have hcount : Memory.released seam.id st' = Memory.released seam.id st + 1 := by
      simp [Memory.released, hlog, hid]
    have := hl.released
    simp only [List.length_singleton, lt_irrefl, if_false] at hhold
    omega

/-- A snapshot of slot `i` is written. -/
theorem snapshot (h : Budget c seam waiting open' given paid m st calm) (hb : c.Blocks seam.id)
    {i : Fin n} {b : Block} {v : List UInt8} (hf : (c.slots i).freeze ≠ []) (hv : 1 < v.length)
    (hlog : st'.log = ((c.slots i).blockId b, v) :: st.log)
    (hblk : st'.blocks = Function.update st.blocks ((c.slots i).blockId b) v)
    (hc : Costs m m' 0) (hneed : m'.need i + 1 ≤ m.need i) :
    Budget c seam waiting open' given paid m' st' calm' := by
  obtain ⟨tests, fails, snaps, due, hl⟩ := h
  have hid := hb.image i b
  have hne : v ≠ [0] := by
    rintro rfl
    exact absurd hv (by decide)
  have hq := hl.quota.of_costs hc
  refine ⟨tests, fails, Function.update snaps i (snaps i + 1), due + 1, ⟨hq.test, hq.fail,
    fun j => ?_, fun j hj => ?_⟩, ?_, ?_, ?_, fun h0 => by cases h0⟩
  · by_cases hj : j = i
    · subst hj
      have := hl.quota.snap j
      rw [Function.update_self]
      omega
    · rw [Function.update_of_ne hj]
      exact hq.snap j
  · have hji : j ≠ i := by
      rintro rfl
      exact hf hj
    rw [Function.update_of_ne hji]
    exact hq.bare j hj
  · have := hl.images
    rw [sum_bump]
    have hcount : Memory.images seam.id st' = Memory.images seam.id st := by
      simp [Memory.images, hlog, hid]
    omega
  · have := hl.snapshots
    rw [sum_bump]
    have hcount : Memory.snapshots seam.id st' = Memory.snapshots seam.id st + 1 := by
      simp [Memory.snapshots, hlog, hid, hne]
    omega
  · have hhold := holding_put hb hf hblk
    rw [if_pos hv] at hhold
    have hcount : Memory.released seam.id st' = Memory.released seam.id st := by
      simp [Memory.released, hlog, hne]
    have := hl.released
    rw [sum_bump]
    omega

/-- A report. -/
theorem consume (h : Budget c seam waiting open' given paid m st m.Shadow) (ht : m.Tidy) (i : Fin n)
    (r : Report) : Budget c seam waiting open' given paid (m.consume i r) st (m.consume i r).Shadow := by
  obtain ⟨tests, fails, snaps, due, hl⟩ := h
  obtain ⟨tests', fails', k, hq, hsum, hg⟩ := hl.quota.consume ht i r
  have := hl.images
  refine ⟨tests', fails', snaps, due + k, hq, by omega, hl.snapshots, hl.released, fun h0 => ?_⟩
  have hframe := sameFrame_setSlot (m := m) (i := i)
    (SameFrame.consume (m.slots i) m.settingOff m.cycleActive r)
  refine (hl.calm (by omega)).of_same rfl rfl rfl (hg (by omega)) id (fun j => .inl ?_) fun j => ?_
  · exact durableBlock_congr (hframe j).entry rfl
  · exact ⟨(hframe j).claim, (hframe j).claimOk⟩

end Budget

section
variable {open' : Opening} {given paid : ℕ} {calm : Prop}

/-! ## Capturing and writing -/

theorem Shadow.captureSlot (h : Shadow m) (hl : Linked c seam C m st) (ht : m.Tidy)
    (dids : List (UInt16 × List UInt8)) (i : Fin n) : Shadow (captureSlot dids m i) := by
  have hstep := captureStep hl ht dids i
  obtain ⟨htaken, hframe⟩ := m.taken_captureSlot dids i
  refine h.of_same hframe.img hframe.cycleActive hframe.settingOff (fun j => gist_taken (htaken j))
    hstep.displacing (fun j => ?_) fun j => ?_
  · rcases hstep.durable j with heq | ⟨hn, -, hd⟩
    · exact .inl heq
    · exact .inr ⟨hn, fun hne => hd (h.claimed j hne).1 (h.claimed j hne).2⟩
  · rw [(htaken j).same]
    exact ⟨rfl, rfl⟩

theorem Budget.capture (h : InOrder c seam m st)
    (hbud : Budget c seam waiting open' given paid m st m.Shadow)
    (dids : List (UInt16 × List UInt8)) : InOrder c seam (m.capture dids) st ∧
      Budget c seam waiting open' given paid (m.capture dids) st (m.capture dids).Shadow := by
  refine List.foldlRecOn (motive := fun m' => InOrder c seam m' st ∧
    Budget c seam waiting open' given paid m' st m'.Shadow) _ _ ⟨h, hbud⟩ ?_
  rintro m' ⟨h', hbud'⟩ i _
  obtain ⟨ht, hcost⟩ := tidy_captureSlot h'.whole.toLinked h'.tidy dids i
  exact ⟨⟨h'.whole.captureSlot dids i fun _ _ => trivial, ht⟩,
    hbud'.move hcost fun hs => hs.captureSlot h'.whole.toLinked h'.tidy dids i⟩

/-- The entry of a written snapshot is durable, and the others are as they were. -/
theorem durableBlock_written (h : Linked c seam C m st) {k : Fin maxEntries} {x : Entry n}
    (hx : m.entries k = some x) (live : Block → Bool) (i : Fin n) :
    ((m.setEntry k (some { x with durable := true })).setSlot x.slot
      { m.slots x.slot with live := live }).durableBlock i =
      if i = x.slot then some x.blk else m.durableBlock i := by
  have hent : ((m.setEntry k (some { x with durable := true })).setSlot x.slot
      { m.slots x.slot with live := live }).slots i = { m.slots i with
        live := if i = x.slot then live else (m.slots i).live } := by
    rw [slots_setSlot]
    split
    · rename_i hi
      rw [hi]
    · rfl
  by_cases hi : i = x.slot
  · rw [if_pos hi, durableBlock, hent, hi]
    dsimp only
    rw [(h.entry x.slot k).mpr ⟨x, hx, rfl⟩]
    simp
  · rw [if_neg hi, durableBlock, hent, durableBlock]
    cases hk' : (m.slots i).entry with
    | none => simp only
    | some k' =>
      have hne : k' ≠ k := by
        rintro rfl
        obtain ⟨y, hy, hs⟩ := (h.entry i k').mp hk'
        rw [hx] at hy
        cases hy
        exact hi hs.symm
      simp only [entries_setSlot, entries_setEntry, if_neg hne]

/-- A snapshot that is written is one that its DTC needs no more. -/
theorem tidy_written (h : Linked c seam C m st) (ht : m.Tidy) {k : Fin maxEntries} {x : Entry n}
    (hx : m.entries k = some x) (hnew : x.durable = false) (live : Block → Bool) (wrote : ℕ) :
    let m' : Memory n := { (m.setEntry k (some { x with durable := true })).setSlot x.slot
      { m.slots x.slot with live := live } with wrote := wrote }
    m'.Tidy ∧ Costs m m' 0 ∧ m'.need x.slot + 1 ≤ m.need x.slot := by
  intro m'
  have hslot : ∀ i, m'.slots i = { m.slots i with
      live := if i = x.slot then live else (m.slots i).live } := by
    intro i
    change ((m.setEntry k _).setSlot x.slot _).slots i = _
    rw [slots_setSlot]
    split
    · rename_i hi
      rw [hi]
    · rfl
  have hdb : ∀ i, m'.durableBlock i = if i = x.slot then some x.blk else m.durableBlock i :=
    durableBlock_written h hx live
  have hentry := (h.entry x.slot k).mpr ⟨x, hx, rfl⟩
  have hnone : m.durableBlock x.slot = none := by simp [durableBlock, hentry, hx, hnew]
  have hhot : ∀ i, m'.Hot i ↔ m.Hot i := fun i => by
    simp only [Hot, hslot]
    rfl
  have hown : m'.need x.slot + 1 ≤ m.need x.slot := by
    have hw : m.Waits x.slot := .inr ⟨by rw [hentry]; simp, hnone⟩
    have hw' : ¬m'.Waits x.slot := by
      rintro (hd | ⟨-, hd⟩)
      · rw [hslot] at hd
        have := ht.due x.slot hd
        rw [hentry] at this
        cases this
      · rw [hdb, if_pos rfl] at hd
        cases hd
    have hb' : ¬m'.durableBlock x.slot = none := by
      rw [hdb, if_pos rfl]
      simp
    have hle : ∀ a h : Bool, needOf a h false false + 1 ≤ needOf a h true true := by decide
    simp only [need, decide_eq_decide.mpr (hhot x.slot), decide_eq_true hw, decide_eq_true hnone,
      decide_eq_false hw', decide_eq_false hb']
    exact hle m.cycleActive _
  refine ⟨⟨ht.off, fun i hd => ?_, fun ha i => ?_⟩, ⟨fun i => ?_, fun i => ?_, fun i => ?_⟩, hown⟩
  · rw [hslot] at hd ⊢
    exact ht.due i hd
  · rw [hslot]
    exact ⟨(ht.marked ha i).tested, (ht.marked ha i).failed⟩
  · simp only [untested, hslot]
    exact le_rfl
  · simp only [unfailed, hslot]
    exact le_rfl
  · by_cases hi : i = x.slot
    · subst hi
      omega
    · have hdi : m'.durableBlock i = m.durableBlock i := by rw [hdb, if_neg hi]
      have hw : m'.Waits i ↔ m.Waits i := by
        simp only [Waits, hdi, hslot]
      have heq : m'.need i = m.need i := need_eq rfl (hhot i) hw hdi
      exact heq.le

/-- One snapshot block. -/
theorem Budget.writeSnapshot (hb : c.Blocks seam.id) {p : Pass n} (h : InOrder c seam p.mem p.store)
    (hbud : Budget c seam waiting open' given paid p.mem p.store calm) (clearing : Option UInt32)
    (k : Fin maxEntries) :
    let p' := writeSnapshot clearing p k
    InOrder c seam p'.mem p'.store ∧ Budget c seam waiting open' given paid p'.mem p'.store
      (calm ∧ p'.mem = p.mem ∧ (p'.ready = true → p.ready = true ∧ ∀ x, p.mem.entries k = some x →
        clearing = none → x.durable = false → x.tookClaim = false)) := by
  intro p'
  have hwhole : Whole c seam (fun _ _ => True) p'.mem p'.store :=
    (keeps_writeSnapshot hb clearing ⟨h.whole, SafeTo.refl _⟩ k).1
  suffices hs : p'.mem.Tidy ∧ Budget c seam waiting open' given paid p'.mem p'.store
      (calm ∧ p'.mem = p.mem ∧ (p'.ready = true → p.ready = true ∧ ∀ x, p.mem.entries k = some x →
        clearing = none → x.durable = false → x.tookClaim = false)) from
    ⟨⟨hwhole, hs.1⟩, hs.2⟩
  clear hwhole
  revert p'
  simp only [Memory.writeSnapshot]
  split
  · rename_i hk
    refine ⟨h.tidy, hbud.imp fun hc => ⟨hc, rfl, fun hr => ⟨hr, fun x hx => ?_⟩⟩⟩
    rw [hk] at hx
    cases hx
  · rename_i x hx
    split
    · rename_i hno
      refine ⟨h.tidy, hbud.imp fun hc => ⟨hc, rfl, fun hr => ⟨hr, fun y hy hclr hd => ?_⟩⟩⟩
      rw [hx] at hy
      cases hy
      rcases hno with hno | ⟨group, hg, -⟩
      · rw [hd] at hno
        cases hno
      · rw [hclr] at hg
        cases hg
    · rename_i hno
      simp only [not_or] at hno
      have hnew : x.durable = false := by simpa using hno.1
      have hf := h.whole.frames k x hx
      have hid := (h.whole.config x.slot).blockId x.blk
      have hv : 1 < (p.mem.snapshotBlock x).length := length_frame _ _ _
      obtain ⟨ht, hcost, hneed⟩ := tidy_written h.whole.toLinked h.tidy hx hnew
        (Function.update (p.mem.slots x.slot).live x.blk true) (p.mem.wrote + 1)
      rcases p.store.put_cases ((p.mem.slots x.slot).blockId x.blk) (p.mem.snapshotBlock x) with
        ⟨hok, hblk, hlog⟩ | ⟨hok, hblk, hlog⟩
      · rw [if_neg (by rw [hok]; simp)]
        refine ⟨h.tidy, (hbud.refused hlog hblk).imp fun hc => ⟨hc, rfl, fun hr => ?_⟩⟩
        simp only [Bool.and_eq_true, Bool.not_eq_true'] at hr
        refine ⟨hr.1, fun y hy _ _ => ?_⟩
        rw [hx] at hy
        cases hy
        exact hr.2
      · rw [if_pos hok]
        rw [hid] at hblk hlog ⊢
        exact ⟨ht, hbud.snapshot hb hf hv hlog hblk hcost hneed⟩

/-- The snapshot blocks of some places. -/
theorem Budget.writePlaces (hb : c.Blocks seam.id) (clearing : Option UInt32)
    (l : List (Fin maxEntries)) {p : Pass n} (h : InOrder c seam p.mem p.store)
    (hbud : Budget c seam waiting open' given paid p.mem p.store calm) :
    let p' := l.foldl (Memory.writeSnapshot clearing) p
    InOrder c seam p'.mem p'.store ∧ Budget c seam waiting open' given paid p'.mem p'.store
      (calm ∧ p'.mem = p.mem ∧ (p'.ready = true → p.ready = true ∧ ∀ k ∈ l, ∀ x,
        p.mem.entries k = some x → clearing = none → x.durable = false → x.tookClaim = false)) := by
  induction l generalizing p calm with
  | nil => exact ⟨h, hbud.imp fun hc => ⟨hc, rfl, fun hr => ⟨hr, by simp⟩⟩⟩
  | cons k l ih =>
    obtain ⟨h₁, hbud₁⟩ := hbud.writeSnapshot hb h clearing k
    obtain ⟨h₂, hbud₂⟩ := ih h₁ hbud₁
    refine ⟨h₂, hbud₂.imp ?_⟩
    rintro ⟨⟨hc, hm, hr⟩, hm', hr'⟩
    refine ⟨hc, hm'.trans hm, fun hall => ?_⟩
    obtain ⟨hready, hrest⟩ := hr' hall
    obtain ⟨hready, hown⟩ := hr hready
    refine ⟨hready, fun k' hk' x hx => ?_⟩
    rcases List.mem_cons.mp hk' with rfl | hk'
    · exact hown x hx
    · exact hrest k' hk' x (by rw [hm]; exact hx)

/-- A pass in which nothing was written is ready only if no stored snapshot was displaced. -/
theorem Budget.writeSnapshots (hb : c.Blocks seam.id) (h : InOrder c seam m st)
    (hbud : Budget c seam waiting open' given paid m st m.Shadow) (clearing : Option UInt32) :
    let p := m.writeSnapshots st clearing
    InOrder c seam p.mem p.store ∧ Budget c seam waiting open' given paid p.mem p.store
      (p.mem.Shadow ∧ (clearing = none → p.ready = true → ¬p.mem.Displacing)) := by
  intro p
  obtain ⟨h', hbud'⟩ := Budget.writePlaces (p := ⟨m, st, true, false, false⟩) hb clearing m.places
    h hbud
  refine ⟨h', hbud'.imp ?_⟩
  rintro ⟨hc, hm, hr⟩
  have hm' : p.mem = m := hm
  rw [hm']
  refine ⟨hc, fun hclr hready => ?_⟩
  rintro ⟨k, x, hk, hx, hd, ht⟩
  have hplace : k ∈ m.places := by simpa [places] using hk
  have := (hr hready).2 k hplace x hx hclr hd
  rw [ht] at this
  cases this

/-- A written image claims the block of each durable snapshot. -/
theorem claim_image (h : Linked c seam C m st) (hb : c.Blocks seam.id) (clearing : Option UInt32)
    {i : Fin n} (hrec : m.recordIn clearing i = m.record i) (hd : m.durableBlock i ≠ none) :
    (imgClaim (m.slots i) (m.image clearing) i).isSome = true := by
  obtain ⟨b, hb'⟩ := Option.ne_none_iff_exists'.mp hd
  obtain ⟨k, x, hk, hx, -, -⟩ := durableBlock_eq hb'
  obtain ⟨y, hy, hs⟩ := (h.entry i k).mp hk
  rw [hx] at hy
  cases hy
  subst hs
  have hflag : Has (m.flagByte x.slot) imgSnapshot := by
    rw [m.flagByte_snapshot, hb']
    rfl
  have htwo : (m.slots x.slot).snapId ≠ (m.slots x.slot).snapIdB := by
    rw [(h.config x.slot).snapId, (h.config x.slot).snapIdB]
    exact hb.two _ (h.frames k x hx)
  have hbytes : recAt (m.image clearing) x.slot 3 = m.flagByte x.slot ∧
      rdBe16 (recAt (m.image clearing) x.slot 8) (recAt (m.image clearing) x.slot 9) =
        (m.slots x.slot).blockId b := by
    rw [recAt_image _ _ _ (by decide), recAt_image _ _ _ (by decide),
      recAt_image _ _ _ (by decide), hrec]
    refine ⟨rfl, (rdBe16_be16 _).trans ?_⟩
    rw [claimedId, hb']
  rw [imgClaim, hbytes.1, hbytes.2, claimOf_blockId hflag htwo]
  rfl

theorem tidy_commit (ht : m.Tidy) (img : List UInt8) (wrote : ℕ) :
    ({ m.commitImage img with wrote := wrote } : Memory n).Tidy ∧
      Costs m { m.commitImage img with wrote := wrote } 0 := by
  refine ⟨⟨ht.off, ht.due, fun ha i => ?_⟩, ⟨fun i => le_rfl, fun i => le_rfl, fun i => ?_⟩⟩
  · exact ⟨(ht.marked ha i).tested, (ht.marked ha i).failed⟩
  · exact le_rfl

/-- The image. -/
theorem Budget.writeImage (hb : c.Blocks seam.id) {p : Pass n} (h : InOrder c seam p.mem p.store)
    (hbud : Budget c seam waiting open' given paid p.mem p.store
      (p.mem.Shadow ∧ (p.ready = true → ¬p.mem.Displacing))) (flush : Bool) :
    let p' := writeImage p seam flush
    InOrder c seam p'.mem p'.store ∧ Budget c seam waiting open' given
      (paid + if flush then 1 else 0) p'.mem p'.store p'.mem.Shadow := by
  intro p'
  have hwhole : Whole c seam (fun _ _ => True) p'.mem p'.store :=
    (keeps_writeImage hb ⟨h.whole, SafeTo.refl _⟩ flush).1
  suffices hs : p'.mem.Tidy ∧ Budget c seam waiting open' given (paid + if flush then 1 else 0)
      p'.mem p'.store p'.mem.Shadow from ⟨⟨hwhole, hs.1⟩, hs.2⟩
  clear hwhole
  revert p'
  have hsame := (hbud.imp And.left).pay (if flush then 1 else 0)
  simp only [Memory.writeImage]
  split
  · exact ⟨h.tidy, hsame⟩
  · rename_i hready
    split
    · exact ⟨h.tidy, hsame⟩
    · split
      · rename_i hwrite
        rcases p.store.put_cases seam.id (p.mem.image none) with ⟨hok, hblk, hlog⟩ |
            ⟨hok, hblk, hlog⟩
        · rw [if_neg (by rw [hok]; simp)]
          exact ⟨h.tidy, hsame.refused hlog hblk⟩
        · rw [if_pos hok]
          obtain ⟨ht, hcost⟩ := tidy_commit h.tidy (p.mem.image none) (p.mem.wrote + 1)
          refine ⟨ht, hbud.image hb hlog hblk hcost ?_ ?_⟩
          · -- nothing is due: then only a flush writes
            rintro ⟨hshadow, hdisp⟩
            have hocc := hshadow.onlyOcc (hdisp (by simpa using hready))
            rcases hwrite with hflush | hno
            · rw [if_pos hflush]
            · exact absurd hocc hno
          · refine ⟨⟨p.mem, rfl, rfl, rfl, fun _ => rfl, fun _ _ => rfl⟩, fun i hd => ?_⟩
            have := claim_image h.whole.toLinked hb none (i := i) rfl hd
            exact ⟨this, this⟩
      · exact ⟨h.tidy, hsame⟩

/-- A change of what is live. -/
theorem tidy_live (ht : m.Tidy) (i : Fin n) (live : Block → Bool) (wrote : ℕ) :
    let m' : Memory n := { m.setSlot i { m.slots i with live := live } with wrote := wrote }
    m'.Tidy ∧ Costs m m' 0 ∧ (m.Shadow → m'.Shadow) := by
  intro m'
  have hslot : ∀ j, m'.slots j = { m.slots j with
      live := if j = i then live else (m.slots j).live } := by
    intro j
    change (m.setSlot i _).slots j = _
    rw [slots_setSlot]
    split
    · rename_i hj
      rw [hj]
    · rfl
  have hneed : ∀ j, m'.need j = m.need j := fun j =>
    need_same rfl rfl (by rw [hslot]) rfl (by rw [hslot]) (by rw [hslot])
  refine ⟨⟨ht.off, fun j hd => ?_, fun ha j => ?_⟩, ⟨fun j => ?_, fun j => ?_, fun j => ?_⟩,
    fun hs => ?_⟩
  · rw [hslot] at hd ⊢
    exact ht.due j hd
  · rw [hslot]
    exact ⟨(ht.marked ha j).tested, (ht.marked ha j).failed⟩
  · simp only [untested, hslot]
    exact le_rfl
  · simp only [unfailed, hslot]
    exact le_rfl
  · exact (hneed j).le
  · refine hs.of_same rfl rfl rfl (fun j => ?_) id (fun j => .inl ?_) fun j => ?_
    · rw [hslot]
      rfl
    · exact durableBlock_congr (by rw [hslot]) rfl
    · rw [hslot]
      exact ⟨rfl, rfl⟩

/-- The mark of a released block. -/
theorem Budget.tombstone (hb : c.Blocks seam.id) {p : Pass n} (h : InOrder c seam p.mem p.store)
    (hbud : Budget c seam waiting open' given paid p.mem p.store p.mem.Shadow) (i : Fin n)
    (b : Block) :
    let p' := tombstone i p b
    InOrder c seam p'.mem p'.store ∧
      Budget c seam waiting open' given paid p'.mem p'.store p'.mem.Shadow := by
  intro p'
  have hwhole : Whole c seam (fun _ _ => True) p'.mem p'.store :=
    (keeps_tombstone hb ⟨h.whole, SafeTo.refl _⟩ i b).1
  suffices hs : p'.mem.Tidy ∧ Budget c seam waiting open' given paid p'.mem p'.store p'.mem.Shadow
    from ⟨⟨hwhole, hs.1⟩, hs.2⟩
  clear hwhole
  revert p'
  simp only [Memory.tombstone]
  split
  · exact ⟨h.tidy, hbud⟩
  · rename_i hno
    simp only [not_or] at hno
    obtain ⟨hf, hlen⟩ := h.whole.live i b (by simpa using hno.1)
    obtain ⟨ht, hcost, hshadow⟩ := tidy_live h.tidy i
      (Function.update (p.mem.slots i).live b false) (p.mem.wrote + 1)
    have hid := (h.whole.config i).blockId b
    rcases p.store.put_cases ((p.mem.slots i).blockId b) [0] with ⟨hok, hblk, hlog⟩ |
        ⟨hok, hblk, hlog⟩
    · rw [if_neg (by rw [hok]; simp)]
      exact ⟨h.tidy, hbud.refused hlog hblk⟩
    · rw [if_pos hok]
      rw [hid] at hblk hlog ⊢
      exact ⟨ht, hbud.release hb hf hlen hlog hblk hcost hshadow⟩

theorem Budget.tombstones (hb : c.Blocks seam.id) {p : Pass n} (h : InOrder c seam p.mem p.store)
    (hbud : Budget c seam waiting open' given paid p.mem p.store p.mem.Shadow) :
    InOrder c seam (tombstones p).mem (tombstones p).store ∧
      Budget c seam waiting open' given paid (tombstones p).mem (tombstones p).store
        (tombstones p).mem.Shadow := by
  refine List.foldlRecOn (motive := fun q : Pass n => InOrder c seam q.mem q.store ∧
    Budget c seam waiting open' given paid q.mem q.store q.mem.Shadow) _ _ ⟨h, hbud⟩ ?_
  rintro q ⟨h', hbud'⟩ i _
  simp only [List.foldl_cons, List.foldl_nil]
  obtain ⟨h₁, hbud₁⟩ := hbud'.tombstone hb h' i .A
  exact hbud₁.tombstone hb h₁ i .B

/-- Other fields change. -/
theorem Budget.unchanged (h : InOrder c seam m st)
    (hbud : Budget c seam waiting open' given paid m st m.Shadow) (hs : m'.slots = m.slots)
    (he : m'.entries = m.entries) (hcap : m'.cap = m.cap) (hi : m'.img = m.img)
    (hst : m'.store = m.store) (ha : m'.cycleActive = m.cycleActive)
    (ho : m'.settingOff = m.settingOff) (hbo : m'.boundaryOff = m.boundaryOff) :
    InOrder c seam m' st ∧ Budget c seam waiting open' given paid m' st m'.Shadow := by
  have hdb : ∀ i, m'.durableBlock i = m.durableBlock i := fun i =>
    durableBlock_congr (by rw [hs]) he
  refine ⟨⟨h.whole.of_eq hs he hst, fun hx => ?_, fun i hd => ?_, fun hx i => ?_⟩,
    hbud.move (k := 0) ⟨fun i => ?_, fun i => ?_, fun i => ?_⟩ fun hsh => ?_⟩
  · rw [ho]
    exact h.tidy.off (hbo ▸ hx)
  · rw [hs] at hd ⊢
    exact h.tidy.due i hd
  · rw [hs]
    exact h.tidy.marked (ha ▸ hx) i
  · simp only [untested, ha, hs]
    exact le_rfl
  · simp only [unfailed, ha, hs]
    exact le_rfl
  · exact (need_same ha hbo (by rw [hs]) he (by rw [hs]) (by rw [hs])).le
  · refine hsh.of_same hi ha ho (fun i => by rw [hs]) ?_ (fun i => .inl (hdb i))
      fun i => by rw [hs]; exact ⟨rfl, rfl⟩
    rintro ⟨k, x, hk, hx, hd, ht⟩
    exact ⟨k, x, hcap ▸ hk, he ▸ hx, hd, ht⟩

/-- Persisting. -/
theorem Budget.persist (hb : c.Blocks seam.id) (h : InOrder c seam m st)
    (hbud : Budget c seam waiting open' given paid m st m.Shadow) (now : UInt64) (flush : Bool) :
    let r := m.persist st now flush
    InOrder c seam r.2.1 r.2.2 ∧ Budget c seam waiting open' given (paid + if flush then 1 else 0)
      r.2.1 r.2.2 r.2.1.Shadow := by
  intro r
  revert r
  simp only [Memory.persist, h.whole.store]
  split
  · exact (hbud.pay _).unchanged h rfl rfl rfl rfl h.whole.store.symm rfl rfl rfl
  · have h₀ : InOrder c seam { m with wrote := 0, store := some seam } st ∧
        Budget c seam waiting open' given paid { m with wrote := 0, store := some seam } st
          (Shadow { m with wrote := 0, store := some seam }) :=
      hbud.unchanged h rfl rfl rfl rfl h.whole.store.symm rfl rfl rfl
    obtain ⟨h₁, hbud₁⟩ := h₀.2.writeSnapshots hb h₀.1 none
    obtain ⟨h₂, hbud₂⟩ := (hbud₁.imp fun hc => ⟨hc.1, hc.2 rfl⟩).writeImage hb h₁ flush
    obtain ⟨h₃, hbud₃⟩ := hbud₂.tombstones hb h₂
    exact hbud₃.unchanged h₃ rfl rfl rfl rfl rfl rfl rfl rfl

/-! ## Clearing -/

/-- After a clear the memory's image is the one that was written for it. -/
theorem image_clearNamed (h : Linked c seam C m st) (group : UInt32) :
    (m.clearNamed group).image none = m.image (some group) := by
  have hframe := m.framed_clearNamed group
  have hfree := frees_clearNamed h group
  rw [image_eq, image_eq]
  have hrec : (m.clearNamed group).recordIn none = m.recordIn (some group) := by
    funext i
    have hslot := m.slots_clearNamed group i
    simp only [recordIn]
    split
    · rename_i hg
      rw [if_pos hg] at hslot
      have hd : (m.clearNamed group).durableBlock i = none := durableBlock_none (by rw [hslot]; rfl)
      simp [record, flagByte, claimedId, hd, hslot, clearSlot, Slot.renew, clearedRecord, be16]
    · rename_i hg
      rw [if_neg hg] at hslot
      have hd : (m.clearNamed group).durableBlock i = m.durableBlock i := by
        rcases hfree.held i with hn | ⟨-, hd⟩
        · rw [durableBlock_none hn, durableBlock_none (by rw [← hslot]; exact hn)]
        · exact hd
      simp only [record, flagByte, claimedId, hd, hslot]
  rw [hrec]
  simp only [header, hframe.cycleActive, hframe.settingOff]

/-- After a clear that is written the store holds the image of the memory. -/
theorem shadow_cleared (h : Linked c seam C m st) (hb : c.Blocks seam.id) (group : UInt32)
    (wrote : ℕ) {st' : Store} (hq : Linked c seam C
      { m.commitImage (m.image (some group)) with wrote := wrote } st') :
    (({ m.commitImage (m.image (some group)) with wrote := wrote } : Memory n).clearNamed
      group).Shadow := by
  have himg := image_clearNamed hq group
  have hfree := frees_clearNamed hq group
  have hframe := framed_clearNamed { m.commitImage (m.image (some group)) with wrote := wrote } group
  refine .of_image (hframe.img.trans ?_) fun i hne => ?_
  · rw [himg]
    rfl
  · have hd : m.durableBlock i ≠ none := by
      rcases hfree.held i with hn | ⟨-, hd⟩
      · exact absurd (durableBlock_none hn) hne
      · rw [hd] at hne
        exact hne
    have hslot := slots_clearNamed { m.commitImage (m.image (some group)) with wrote := wrote }
      group i
    split at hslot
    · exact absurd (durableBlock_none (by rw [hslot]; rfl)) hne
    · rename_i hg
      rw [hslot]
      have := claim_image h hb (some group) (i := i) (if_neg hg) hd
      exact ⟨this, this⟩

theorem Budget.persistClear (hb : c.Blocks seam.id) (h : InOrder c seam m st)
    (hbud : Budget c seam waiting open' given paid m st m.Shadow) (group : UInt32) :
    let r := m.persistClear st group
    InOrder c seam r.2.1 r.2.2 ∧
      (r.1 = false → Budget c seam waiting open' given paid r.2.1 r.2.2 r.2.1.Shadow) ∧
      (r.1 = true → Budget c seam waiting open' given paid r.2.1 r.2.2 True ∨
        Budget c seam waiting open' given (paid + 1) r.2.1 r.2.2 True ∧
          (r.2.1.clearNamed group).Shadow) := by
  intro r
  revert r
  simp only [Memory.persistClear, h.whole.store]
  have h₀ : InOrder c seam { m with wrote := 0, store := some seam } st ∧
      Budget c seam waiting open' given paid { m with wrote := 0, store := some seam } st
        (Shadow { m with wrote := 0, store := some seam }) :=
    hbud.unchanged h rfl rfl rfl rfl h.whole.store.symm rfl rfl rfl
  obtain ⟨h₁, hbud₁⟩ := h₀.2.writeSnapshots hb h₀.1 (some group)
  revert h₁ hbud₁
  generalize Memory.writeSnapshots { m with wrote := 0, store := some seam } st (some group) = w
  intro h₁ hbud₁
  have hshadow := hbud₁.imp And.left
  split
  · have h₂ : InOrder c seam { w.mem with clearRefused := true } w.store ∧
        Budget c seam waiting open' given paid { w.mem with clearRefused := true } w.store
          (Shadow { w.mem with clearRefused := true }) :=
      hshadow.unchanged h₁ rfl rfl rfl rfl rfl rfl rfl rfl
    exact ⟨h₂.1, fun _ => h₂.2, fun hx => by cases hx⟩
  · split
    · exact ⟨h₁, fun hx => (by cases hx), fun _ => .inl (hbud₁.imp fun _ => trivial)⟩
    · rcases w.store.put_cases seam.id (w.mem.image (some group)) with ⟨hok, hblk, hlog⟩ |
          ⟨hok, hblk, hlog⟩
      · rw [if_neg (by rw [hok]; simp)]
        let st' := (w.store.put seam.id (w.mem.image (some group))).2
        have hw : InOrder c seam w.mem st' := ⟨h₁.whole.of_blocks hblk, h₁.tidy⟩
        have h₂ : InOrder c seam { w.mem with clearRefused := true } st' ∧
            Budget c seam waiting open' given paid { w.mem with clearRefused := true } st'
              (Shadow { w.mem with clearRefused := true }) :=
          (hshadow.refused hlog hblk).unchanged hw rfl rfl rfl rfl rfl rfl rfl rfl
        exact ⟨h₂.1, fun _ => h₂.2, fun hx => by cases hx⟩
      · rw [if_pos hok]
        obtain ⟨ht, hcost⟩ := tidy_commit h₁.tidy (w.mem.image (some group)) (w.mem.wrote + 1)
        have hwhole : Whole c seam (fun _ _ => True)
            { w.mem.commitImage (w.mem.image (some group)) with wrote := w.mem.wrote + 1 }
            (w.store.put seam.id (w.mem.image (some group))).2 :=
          (h₁.whole.commit hb (some group) hblk).of_eq rfl rfl rfl
        refine ⟨⟨hwhole, ht⟩, fun hx => (by cases hx), fun _ => .inr ⟨?_, ?_⟩⟩
        · exact hbud₁.image hb hlog hblk hcost (fun _ => rfl) trivial
        · -- the DTCs that are left keep the claims that the image makes for them
          exact shadow_cleared h₁.whole.toLinked hb group _ hwhole.toLinked

/-- A clear. -/
theorem Budget.clear (hb : c.Blocks seam.id) (h : InOrder c seam m st)
    (hbud : Budget c seam waiting open' given paid m st m.Shadow) (group : UInt32) :
    let r := m.clear st group
    let k := if r.1 = 0 then 1 else 0
    InOrder c seam r.2.1 r.2.2 ∧
      Budget c seam waiting open' (given + k) (paid + k) r.2.1 r.2.2 r.2.1.Shadow := by
  intro r k
  obtain ⟨h₁, hno, hyes⟩ := hbud.persistClear hb h group
  rcases m.clear_cases st group with ⟨hcode, heq⟩ | ⟨hcode, hp, heq⟩ | ⟨hcode, hp, -, heq⟩
  · have hk : k = 0 := if_neg (by rcases hcode with hx | hx <;> rw [hx] <;> decide)
    rw [hk, heq]
    exact ⟨h, hbud⟩
  · have hk : k = 0 := if_neg (by rw [hcode]; decide)
    rw [hk, heq]
    exact ⟨h₁, hno hp⟩
  · have hk : k = 1 := if_pos hcode
    rw [hk, heq]
    obtain ⟨ht, hcost⟩ := tidy_clearNamed h₁.whole.toLinked h₁.tidy group
    refine ⟨⟨h₁.whole.clearNamed group, ht⟩, ?_⟩
    rcases hyes hp with hx | ⟨hx, hshadow⟩
    · exact hx.change hcost
    · exact hx.move hcost fun _ => hshadow

end

end Memory

end BloblyEmb.Fault
