import BloblyEmb.Fault.Writes

/-!
# What restoring does

After a restore a DTC is as its record in the stored image says, or as after a clear if no record
names it; it has a snapshot only if such a record claims one. Then the cycle that power interrupted
has ended.
-/
namespace BloblyEmb.Fault

/-- The slots differ only in their snapshot and in what they know of the store. -/
def Alike (s s' : Slot) : Prop :=
  s' = { s with entry := s'.entry, claim := s'.claim, claimOk := s'.claimOk, live := s'.live }

theorem Alike.refl (s : Slot) : Alike s s := rfl

theorem Alike.trans {s s' s'' : Slot} (h : Alike s s') (h' : Alike s' s'') : Alike s s'' := by
  rw [Alike] at *
  rw [h', h]

namespace Memory
variable {n : ℕ}

/-- Record `r` of the image names slot `i`. -/
def NamesSlot (m : Memory n) (img : List UInt8) (r : ℕ) (i : Fin n) : Prop :=
  r < (img.length - 2) / imageRec ∧
    rdBe24 (recAt img r 0) (recAt img r 1) (recAt img r 2) = (m.slots i).dtc

theorem slotOf_eq {m : Memory n} {dtc : UInt32} {i : Fin n} (h : m.slotOf dtc = some i) :
    (m.slots i).dtc = dtc := by
  simpa using List.find?_some h

/-! ## One record -/

theorem loadSnapshot_spec {m m' : Memory n} {st : Store} {i : Fin n} {b : Block}
    (h : m.loadSnapshot st i b = some m') :
    (∃ k, m'.slots i = { m.slots i with entry := some k }) ∧
      (∀ j, j ≠ i → m'.slots j = m.slots j) ∧ Framed m m' ∧
      (∀ k e, m'.entries k = some e → m.entries k = some e ∨ e.slot = i) := by
  simp only [loadSnapshot] at h
  split at h
  · cases h
  · split at h
    · cases h
    · split at h
      · cases h
      · split at h
        · cases h
        · rename_i k _
          cases h
          refine ⟨⟨k, by simp⟩, fun j hj => by simp [hj], ⟨rfl, rfl, rfl, rfl⟩, fun k' e he => ?_⟩
          simp only [entries_setSlot, entries_setEntry] at he
          split at he
          · cases he
            exact .inr rfl
          · exact .inl he

/-- What one record can do: restore the slot it names, and load its snapshot if it claims one. -/
structure RecordStep (m m' : Memory n) (r : ℕ) (i : Fin n) : Prop where
  own : Alike (restoredSlot (m.slots i) m.img r) (m'.slots i)
  entry : (m'.slots i).entry ≠ (m.slots i).entry → Has (recAt m.img r 3) imgSnapshot
  other : ∀ j, j ≠ i → m'.slots j = m.slots j
  frame : Framed m m'
  entries : ∀ k e, m'.entries k = some e →
    m.entries k = some e ∨ (e.slot = i ∧ Has (recAt m.img r 3) imgSnapshot)

theorem claim_flag {s : Slot} {img : List UInt8} {r : ℕ} {b : Block}
    (h : restoredClaim s img r = some b) : Has (recAt img r 3) imgSnapshot := by
  by_cases hf : Has (recAt img r 3) imgSnapshot
  · exact hf
  · have hnone : restoredClaim s img r = none := by
      simp only [restoredClaim, imgClaim, Slot.claimOf, hf, not_false_eq_true, if_true, ite_self]
    rw [hnone] at h
    cases h

theorem takeRecord_spec (m : Memory n) (i : Fin n) (r : ℕ) :
    RecordStep m (m.takeRecord i r) r i where
  own := by
    rw [takeRecord, slots_setSlot_self]
    rfl
  entry h := by
    rw [takeRecord, slots_setSlot_self] at h
    exact absurd rfl h
  other j hj := slots_setSlot_of_ne _ hj _
  frame := ⟨rfl, rfl, rfl, rfl⟩
  entries _ _ he := .inl he

theorem restoreRecord_of_none {m : Memory n} {st : Store} {r : ℕ}
    (h : m.slotOf (rdBe24 (recAt m.img r 0) (recAt m.img r 1) (recAt m.img r 2)) = none) :
    restoreRecord st m r = m := by
  rw [restoreRecord, h]

theorem restoreRecord_of_some {m : Memory n} (st : Store) {r : ℕ} {i : Fin n}
    (h : m.slotOf (rdBe24 (recAt m.img r 0) (recAt m.img r 1) (recAt m.img r 2)) = some i) :
    RecordStep m (restoreRecord st m r) r i := by
  have ht := m.takeRecord_spec i r
  have hclaim : ((m.takeRecord i r).slots i).claim = restoredClaim (m.slots i) m.img r := by
    rw [takeRecord, slots_setSlot_self]
  simp only [restoreRecord, h, hclaim]
  split
  · rename_i m₂ hload
    split at hload
    · cases hload
    · obtain ⟨b, hb, hload⟩ := Option.bind_eq_some_iff.mp hload
      have hflag := claim_flag hb
      obtain ⟨⟨k, hk⟩, ho, hfr, he⟩ := loadSnapshot_spec hload
      have hframe := ht.frame.trans hfr
      refine ⟨?_, fun _ => hflag, fun j hj => ?_, ⟨hframe.img, hframe.store, hframe.settingOff,
        hframe.cycleActive⟩, fun k e hke => ?_⟩
      · rw [slots_setSlot_self, hk]
        exact ht.own.trans rfl
      · rw [slots_setSlot_of_ne _ hj, ho j hj, ht.other j hj]
      · rcases he k e hke with h | h
        · exact .inl h
        · exact .inr ⟨h, hflag⟩
  · split
    · exact ⟨ht.own, ht.entry, ht.other, ⟨rfl, rfl, rfl, rfl⟩, ht.entries⟩
    · exact ht

/-! ## All records -/

/-- Every DTC is configured once. -/
def Distinct (m : Memory n) : Prop := ∀ i j, (m.slots i).dtc = (m.slots j).dtc → i = j

theorem slotOf_of_distinct {m : Memory n} (h : m.Distinct) {i : Fin n} {dtc : UInt32}
    (hi : (m.slots i).dtc = dtc) : m.slotOf dtc = some i := by
  cases hf : m.slotOf dtc with
  | none =>
    have := List.find?_eq_none.mp hf i (List.mem_finRange i)
    simp [hi] at this
  | some j => rw [h j i ((slotOf_eq hf).trans hi.symm)]

/-- A record of the image names slot `i` and claims a snapshot for it. -/
def ClaimedIn (m : Memory n) (img : List UInt8) (i : Fin n) : Prop :=
  ∃ r, m.NamesSlot img r i ∧ Has (recAt img r 3) imgSnapshot

/-- The memory after the first `R` records, from `m₀` on. -/
structure Loading (m₀ m : Memory n) (img : List UInt8) (R : ℕ) : Prop where
  image : m.img = img
  frame : Framed m₀ m
  slots : ∀ i, (Alike (m₀.slots i) (m.slots i) ∧ ∀ r < R, ¬m₀.NamesSlot img r i) ∨
    ∃ r < R, (m₀.NamesSlot img r i ∧ ∀ r' < R, r < r' → ¬m₀.NamesSlot img r' i) ∧
      Alike (restoredSlot (m₀.slots i) img r) (m.slots i)
  entry : ∀ i, (m.slots i).entry ≠ none → m₀.ClaimedIn img i
  entries : ∀ k e, m.entries k = some e → m₀.ClaimedIn img e.slot

theorem Loading.dtc {m₀ m : Memory n} {img : List UInt8} {R : ℕ} (h : Loading m₀ m img R)
    (i : Fin n) : (m.slots i).dtc = (m₀.slots i).dtc := by
  rcases h.slots i with ⟨ha, -⟩ | ⟨r, -, -, ha⟩
  · rw [ha]
  · rw [ha]
    rfl

theorem restoredSlot_alike {s s' : Slot} {img : List UInt8} {r : ℕ}
    (h : Alike s s' ∨ ∃ q, Alike (restoredSlot s img q) s') :
    Alike (restoredSlot s img r) (restoredSlot s' img r) := by
  rcases h with h | ⟨q, h⟩ <;>
  · rw [h]
    rfl

theorem loading_restoreRecord {m₀ m : Memory n} {img : List UInt8} {R : ℕ} (st : Store)
    (hd : m₀.Distinct) (h : Loading m₀ m img R) (hR : R < (img.length - 2) / imageRec) :
    Loading m₀ (restoreRecord st m R) img (R + 1) := by
  have hdm : m.Distinct := fun i j hij => hd i j (by rwa [h.dtc, h.dtc] at hij)
  cases hi : m.slotOf (rdBe24 (recAt m.img R 0) (recAt m.img R 1) (recAt m.img R 2)) with
  | none =>
    rw [restoreRecord_of_none hi]
    refine { h with slots := fun j => ?_ }
    have hRj : ¬m₀.NamesSlot img R j := by
      intro hname
      have := slotOf_of_distinct hdm ((h.dtc j).trans hname.2.symm)
      rw [h.image, this] at hi
      cases hi
    rcases h.slots j with ⟨ha, hno⟩ | ⟨r, hr, ⟨hname, hlast⟩, ha⟩
    · refine .inl ⟨ha, fun r hr hname => ?_⟩
      rcases Nat.lt_succ_iff_lt_or_eq.mp hr with hr | rfl
      · exact hno r hr hname
      · exact hRj hname
    · refine .inr ⟨r, by omega, ⟨hname, fun r' hr' hlt hname' => ?_⟩, ha⟩
      rcases Nat.lt_succ_iff_lt_or_eq.mp hr' with hr' | rfl
      · exact hlast r' hr' hlt hname'
      · exact hRj hname'
  | some i =>
    have hs := restoreRecord_of_some st hi
    have hname : m₀.NamesSlot img R i := by
      refine ⟨hR, ?_⟩
      rw [← h.dtc i, slotOf_eq hi, h.image]
    have hclaim : Has (recAt m.img R 3) imgSnapshot → m₀.ClaimedIn img i := by
      intro hf
      exact ⟨R, hname, h.image ▸ hf⟩
    refine ⟨hs.frame.img.trans h.image, h.frame.trans hs.frame, fun j => ?_, fun j hj => ?_,
      fun k e he => ?_⟩
    · by_cases hj : j = i
      · subst hj
        refine .inr ⟨R, by omega, ⟨hname, fun r' hr' hlt => by omega⟩, ?_⟩
        have ho := hs.own
        rw [h.image] at ho
        rcases h.slots j with ⟨ha, -⟩ | ⟨r, -, -, ha⟩
        · exact (restoredSlot_alike (.inl ha)).trans ho
        · exact (restoredSlot_alike (.inr ⟨_, ha⟩)).trans ho
      · rw [hs.other j hj]
        have hRj : ¬m₀.NamesSlot img R j := fun hname' =>
          hj (hd j i (hname'.2.symm.trans hname.2))
        rcases h.slots j with ⟨ha, hno⟩ | ⟨r, hr, ⟨hname', hlast⟩, ha⟩
        · refine .inl ⟨ha, fun r hr hname' => ?_⟩
          rcases Nat.lt_succ_iff_lt_or_eq.mp hr with hr | rfl
          · exact hno r hr hname'
          · exact hRj hname'
        · refine .inr ⟨r, by omega, ⟨hname', fun r' hr' hlt hn => ?_⟩, ha⟩
          rcases Nat.lt_succ_iff_lt_or_eq.mp hr' with hr' | rfl
          · exact hlast r' hr' hlt hn
          · exact hRj hn
    · by_cases hji : j = i
      · subst hji
        by_cases he : ((restoreRecord st m R).slots j).entry = (m.slots j).entry
        · rw [he] at hj
          exact h.entry j hj
        · exact hclaim (hs.entry he)
      · rw [hs.other j hji] at hj
        exact h.entry j hj
    · rcases hs.entries k e he with he | ⟨rfl, hf⟩
      · exact h.entries k e he
      · exact hclaim hf

theorem loading_foldl {m₀ : Memory n} {img : List UInt8} (st : Store) (hd : m₀.Distinct)
    (h₀ : Loading m₀ m₀ img 0) {R : ℕ} (hR : R ≤ (img.length - 2) / imageRec) :
    Loading m₀ ((List.range R).foldl (restoreRecord st) m₀) img R := by
  induction R with
  | zero => exact h₀
  | succ R ih =>
    rw [List.range_succ, List.foldl_append]
    exact loading_restoreRecord st hd (ih (by omega)) (by omega)

/-! ## The capacity -/

/-- What dropping and packing entries can do: a slot that has an entry afterwards had one, or an
entry was its. -/
structure Fitted (m m' : Memory n) : Prop where
  slots : ∀ i, m'.slots i = { m.slots i with entry := (m'.slots i).entry }
  entry : ∀ i, (m'.slots i).entry ≠ none →
    (m.slots i).entry ≠ none ∨ ∃ k e, m.entries k = some e ∧ e.slot = i
  entries : ∀ k e, m'.entries k = some e → ∃ k', m.entries k' = some e
  frame : Framed m m'

theorem Fitted.refl (m : Memory n) : Fitted m m :=
  ⟨fun _ => rfl, fun _ => .inl, fun k _ he => ⟨k, he⟩, .refl m⟩

theorem Fitted.trans {m m' m'' : Memory n} (h : Fitted m m') (h' : Fitted m' m'') :
    Fitted m m'' where
  slots i := by rw [h'.slots i, h.slots i]
  entry i hi := by
    rcases h'.entry i hi with hi | ⟨k, e, he, hs⟩
    · exact h.entry i hi
    · obtain ⟨k', he'⟩ := h.entries k e he
      exact .inr ⟨k', e, he', hs⟩
  entries k e he := by
    obtain ⟨k', he'⟩ := h'.entries k e he
    exact h.entries k' e he'
  frame := h.frame.trans h'.frame

theorem entries_freeEntry {m : Memory n} {i : Fin n} {k : Fin maxEntries} {e : Entry n}
    (h : (m.freeEntry i).entries k = some e) : m.entries k = some e := by
  simp only [freeEntry] at h
  split at h
  · simp only [entries_setSlot, entries_setEntry] at h
    split at h
    · cases h
    · exact h
  · exact h

theorem fitted_freeEntry (m : Memory n) (i : Fin n) : Fitted m (m.freeEntry i) where
  slots j := by
    by_cases hj : j = i
    · subst hj
      simp
    · simp [hj]
  entry j hj := by
    by_cases hji : j = i
    · subst hji
      simp at hj
    · rw [slots_freeEntry_of_ne _ hji] at hj
      exact .inl hj
  entries k _ he := ⟨k, entries_freeEntry he⟩
  frame := m.framed_freeEntry i

theorem fitted_dropEntries (fuel : ℕ) (m : Memory n) : Fitted m (dropEntries fuel m) := by
  induction fuel generalizing m with
  | zero => exact .refl m
  | succ fuel ih =>
    simp only [dropEntries]
    split
    · exact .refl m
    · split
      · exact .refl m
      · exact (m.fitted_freeEntry _).trans (ih _)

theorem fitted_packEntry (x : Memory n × ℕ) (k : Fin maxEntries) :
    Fitted x.1 (packEntry x k).1 := by
  obtain ⟨m, next⟩ := x
  simp only [packEntry]
  split
  · exact .refl m
  · rename_i e he
    split
    · split
      · constructor
        · intro j
          rw [slots_setSlot]
          split
          · rename_i hj
            subst hj
            rfl
          · rfl
        · intro j hj
          rw [slots_setSlot] at hj
          split at hj
          · rename_i hji
            exact .inr ⟨k, e, he, hji.symm⟩
          · exact .inl hj
        · intro k' e' he'
          simp only [entries_setSlot, entries_setEntry] at he'
          split at he'
          · cases he'
          · split at he'
            · cases he'
              exact ⟨k, he⟩
            · exact ⟨k', he'⟩
        · exact ⟨rfl, rfl, rfl, rfl⟩
      · exact .refl m
    · exact .refl m

theorem fitted_fitEntries (m : Memory n) : Fitted m m.fitEntries := by
  refine List.foldlRecOn (motive := fun x : Memory n × ℕ => Fitted m x.1) _ _
    (m.fitted_dropEntries maxEntries) ?_
  intro x h k _
  exact h.trans (fitted_packEntry x k)

/-! ## The restored memory -/

/-- The image says that a cycle was open with the setting on, so that the restore ends it. -/
def Interrupted (img : List UInt8) : Prop :=
  IsImage img ∧ Has (img.getD 1 0) imgCycleOpen ∧ ¬Has (img.getD 1 0) imgSettingOff

instance (img : List UInt8) : Decidable (Interrupted img) := inferInstanceAs (Decidable (_ ∧ _))

/-- Slot `i` of `m` as the stored image gives it, before the interrupted cycle ends. -/
structure Found (m : Memory n) (img : List UInt8) (i : Fin n) (s : Slot) : Prop where
  slot : (Alike (checkBlocks (m.slots i)) s ∧ ∀ r, IsImage img → ¬m.NamesSlot img r i) ∨
    ∃ r, IsImage img ∧ (m.NamesSlot img r i ∧ ∀ r', r < r' → ¬m.NamesSlot img r' i) ∧
      Alike (restoredSlot (checkBlocks (m.slots i)) img r) s
  entry : s.entry ≠ none → IsImage img ∧ m.ClaimedIn img i

@[simp] theorem dtc_checkBlocks (s : Slot) : (checkBlocks s).dtc = s.dtc := by
  simp only [checkBlocks]
  split <;> rfl
@[simp] theorem entry_checkBlocks (s : Slot) : (checkBlocks s).entry = s.entry := by
  simp only [checkBlocks]
  split <;> rfl

theorem alike_liveBlocks (m : Memory n) (st : Store) (i : Fin n) :
    Alike (m.slots i) (m.liveBlocks st i) ∧ (m.liveBlocks st i).entry = (m.slots i).entry := by
  simp only [liveBlocks]
  split
  · exact ⟨.refl _, rfl⟩
  · exact ⟨rfl, rfl⟩

theorem Fitted.alike {m m' : Memory n} (h : Fitted m m') (i : Fin n) :
    Alike (m.slots i) (m'.slots i) := by
  have := h.slots i
  rw [Alike, this]

/-- What a memory knows of the stored value. -/
def known (img : List UInt8) : List UInt8 := if IsImage img then img else []

theorem known_of_image {img : List UInt8} (h : IsImage img) : known img = img := if_pos h

/-- The memory once the stored value is read. -/
theorem readImage_spec {m : Memory n} (st : Store) (img : List UInt8) (hd : m.Distinct)
    (hslot : ∀ i, (m.slots i).entry = none) (hent : ∀ k, m.entries k = none) :
    Framed { m with img := known img } (m.checkSlots.readImage st img) ∧
      ∀ i, Found m img i ((m.checkSlots.readImage st img).slots i) := by
  rw [readImage]
  split
  · rename_i hi
    let m₀ := { m.checkSlots with img := img }
    have hd₀ : m₀.Distinct := fun i j hij => hd i j (by simpa [m₀, checkSlots] using hij)
    have hname : ∀ r i, m₀.NamesSlot img r i ↔ m.NamesSlot img r i := by
      intro r i
      simp [NamesSlot, m₀, checkSlots]
    have hload := loading_foldl st hd₀ (R := (img.length - 2) / imageRec)
      ⟨rfl, .refl _, fun i => .inl ⟨.refl _, by simp⟩,
        fun i h => absurd (by simp [m₀, checkSlots, hslot]) h,
        fun k e he => by simp [m₀, checkSlots, hent] at he⟩ le_rfl
    have hfit := fitted_fitEntries ((List.range ((img.length - 2) / imageRec)).foldl
      (restoreRecord st) m₀)
    have hclaim : ∀ i, m₀.ClaimedIn img i → m.ClaimedIn img i := by
      rintro i ⟨r, hn, hf⟩
      exact ⟨r, (hname r i).mp hn, hf⟩
    have hframe := hload.frame.trans hfit.frame
    refine ⟨⟨?_, hframe.store, hframe.settingOff, hframe.cycleActive⟩,
      fun i => ⟨?_, fun he => ?_⟩⟩
    · exact (hfit.frame.img.trans hload.image).trans (known_of_image hi).symm
    · rcases hload.slots i with ⟨ha, hno⟩ | ⟨r, -, hn, ha⟩
      · exact .inl ⟨ha.trans (hfit.alike i), fun r _ hn => hno r hn.1 ((hname r i).mpr hn)⟩
      · refine .inr ⟨r, hi, ⟨(hname r i).mp hn.1, fun r' hlt hn' => ?_⟩, ha.trans (hfit.alike i)⟩
        exact hn.2 r' hn'.1 hlt ((hname r' i).mpr hn')
    · rcases hfit.entry i he with he | ⟨k, e, he, hs⟩
      · exact ⟨hi, hclaim i (hload.entry i he)⟩
      · exact ⟨hi, hclaim i (hs ▸ hload.entries k e he)⟩
  · rename_i hi
    refine ⟨⟨(if_neg hi).symm, rfl, rfl, rfl⟩,
      fun i => ⟨.inl ⟨.refl _, fun r h => absurd h hi⟩, fun h => absurd ?_ h⟩⟩
    simp [checkSlots, hslot]

theorem Found.live {m m' : Memory n} {img : List UInt8} {st : Store} {i : Fin n}
    (h : Found m img i (m'.slots i)) : Found m img i (m'.liveBlocks st i) := by
  obtain ⟨ha, he⟩ := m'.alike_liveBlocks st i
  constructor
  · rcases h.slot with ⟨hs, hno⟩ | ⟨r, hi, hn, hs⟩
    · exact .inl ⟨hs.trans ha, hno⟩
    · exact .inr ⟨r, hi, hn, hs.trans ha⟩
  · rw [he]
    exact h.entry

theorem restore_eq {m : Memory n} {seam : Seam} (hs : m.store = some seam) (st : Store) :
    m.restore st =
      let m' := m.checkSlots.readImage st (storedImage st seam)
      let m' := { m' with slots := m'.liveBlocks st }
      if IsImage (storedImage st seam) ∧ Has ((storedImage st seam).getD 1 0) imgCycleOpen then
        m'.endInterrupted (Has ((storedImage st seam).getD 1 0) imgSettingOff)
      else m' := by
  rw [restore, hs]

/-- What a restore finds, and what it makes of it. -/
theorem restore_spec {m : Memory n} (st : Store) {seam : Seam} (hs : m.store = some seam)
    (hoff : m.settingOff = false) (hactive : m.cycleActive = false)
    (hd : m.Distinct) (hslot : ∀ i, (m.slots i).entry = none) (hent : ∀ k, m.entries k = none) :
    Framed { m with img := known (storedImage st seam) } (m.restore st) ∧
      ∀ i, ∃ s, Found m (storedImage st seam) i s ∧
        (m.restore st).slots i =
          if Interrupted (storedImage st seam) then endedSlot s else s := by
  rw [restore_eq hs]
  generalize storedImage st seam = img
  obtain ⟨hframe, hf⟩ := readImage_spec st img hd hslot hent
  generalize m.checkSlots.readImage st img = m' at hframe hf
  dsimp only
  split
  · rename_i ho
    have hint : Interrupted img ↔ ¬Has (img.getD 1 0) imgSettingOff :=
      ⟨fun h => h.2.2, fun h => ⟨ho.1, ho.2, h⟩⟩
    have hend := framed_cycleEnd ({ m' with
      slots := m'.liveBlocks st, cycleActive := true,
      settingOff := decide (Has (img.getD 1 0) imgSettingOff) } : Memory n)
    refine ⟨⟨hend.img.trans hframe.img, hend.store.trans hframe.store, hoff.symm,
      hend.cycleActive.trans hactive.symm⟩, fun i => ⟨m'.liveBlocks st i, (hf i).live, ?_⟩⟩
    simp only [endInterrupted, slots_cycleEnd, decide_eq_true_eq, true_and]
    simp only [hint]
  · rename_i ho
    have hint : ¬Interrupted img := fun h => ho ⟨h.1, h.2.1⟩
    exact ⟨⟨hframe.img, hframe.store, hframe.settingOff, hframe.cycleActive⟩,
      fun i => ⟨m'.liveBlocks st i, (hf i).live, (if_neg hint).symm⟩⟩

end Memory

end BloblyEmb.Fault
