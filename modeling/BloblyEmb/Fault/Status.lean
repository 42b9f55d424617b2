import BloblyEmb.Lib.Loop
import BloblyEmb.Fault.Persist

/-!
# What each operation does to a DTC

The operations of the fault memory seen from one slot: which of its fields each can change, and to
what. The status byte has 256 values, so what an operation does to its bits is checked on all.
-/
namespace BloblyEmb.Fault

/-! ## Bytes -/

instance decidableForallByte {p : UInt8 → Prop} [DecidablePred p] : Decidable (∀ s, p s) :=
  decidable_of_iff (∀ k : Fin UInt8.size, p (UInt8.ofFin k))
    ⟨fun h s => by simpa using h s.toFin, fun h k => h _⟩

/-- The bits that tell of a failure. -/
def failureBits : UInt8 :=
  testFailed ||| testFailedThisCycle ||| pending ||| confirmed ||| failedSinceClear

/-- The image, the seam and the flags of the memory are the same. -/
structure Framed {n : ℕ} (m m' : Memory n) : Prop where
  img : m'.img = m.img
  store : m'.store = m.store
  settingOff : m'.settingOff = m.settingOff
  cycleActive : m'.cycleActive = m.cycleActive

theorem Framed.refl {n : ℕ} (m : Memory n) : Framed m m := ⟨rfl, rfl, rfl, rfl⟩

theorem Framed.trans {n : ℕ} {m m' m'' : Memory n} (h : Framed m m') (h' : Framed m' m'') :
    Framed m m'' :=
  ⟨h'.img.trans h.img, h'.store.trans h.store, h'.settingOff.trans h.settingOff,
    h'.cycleActive.trans h.cycleActive⟩

namespace Memory
variable {n : ℕ} (m : Memory n)

@[simp] theorem slots_setSlot_self (i : Fin n) (s : Slot) : (m.setSlot i s).slots i = s := by
  simp [setSlot]
@[simp] theorem slots_setSlot_of_ne {i j : Fin n} (h : j ≠ i) (s : Slot) :
    (m.setSlot i s).slots j = m.slots j := by
  simp [setSlot, h]
theorem slots_setSlot (i j : Fin n) (s : Slot) :
    (m.setSlot i s).slots j = if j = i then s else m.slots j := by
  simp [setSlot, Function.update_apply]
@[simp] theorem entries_setSlot (i : Fin n) (s : Slot) : (m.setSlot i s).entries = m.entries := rfl
@[simp] theorem img_setSlot (i : Fin n) (s : Slot) : (m.setSlot i s).img = m.img := rfl
@[simp] theorem store_setSlot (i : Fin n) (s : Slot) : (m.setSlot i s).store = m.store := rfl
@[simp] theorem settingOff_setSlot (i : Fin n) (s : Slot) :
    (m.setSlot i s).settingOff = m.settingOff := rfl
@[simp] theorem cycleActive_setSlot (i : Fin n) (s : Slot) :
    (m.setSlot i s).cycleActive = m.cycleActive := rfl
@[simp] theorem slots_setEntry (k : Fin maxEntries) (e : Option (Entry n)) :
    (m.setEntry k e).slots = m.slots := rfl
@[simp] theorem img_setEntry (k : Fin maxEntries) (e : Option (Entry n)) :
    (m.setEntry k e).img = m.img := rfl
@[simp] theorem store_setEntry (k : Fin maxEntries) (e : Option (Entry n)) :
    (m.setEntry k e).store = m.store := rfl
@[simp] theorem entries_setEntry_self (k : Fin maxEntries) (e : Option (Entry n)) :
    (m.setEntry k e).entries k = e := by
  simp [setEntry]
theorem entries_setEntry (k j : Fin maxEntries) (e : Option (Entry n)) :
    (m.setEntry k e).entries j = if j = k then e else m.entries j := by
  simp [setEntry, Function.update_apply]

/-! ## Entries -/

theorem framed_freeEntry (i : Fin n) : Framed m (m.freeEntry i) := by
  simp only [freeEntry]
  split <;> exact ⟨rfl, rfl, rfl, rfl⟩
@[simp] theorem slots_freeEntry_self (i : Fin n) :
    (m.freeEntry i).slots i = { m.slots i with entry := none } := by
  simp only [freeEntry]
  split <;> simp
@[simp] theorem slots_freeEntry_of_ne {i j : Fin n} (h : j ≠ i) :
    (m.freeEntry i).slots j = m.slots j := by
  simp only [freeEntry]
  split <;> simp [h]

/-! ## The end of a cycle -/

/-- A slot as the end of a cycle leaves it. -/
def endedSlot (s : Slot) : Slot :=
  let s := endSlot s
  if s.entry ≠ none ∧ ¬Has s.status (pending ||| confirmed) then { s with entry := none } else s

theorem cycleEndSlot_own (i : Fin n) : (m.cycleEndSlot i).slots i = endedSlot (m.slots i) := by
  simp only [cycleEndSlot, endedSlot, slots_setSlot_self]
  split <;> simp

theorem cycleEndSlot_other {i j : Fin n} (h : j ≠ i) :
    (m.cycleEndSlot i).slots j = m.slots j := by
  simp only [cycleEndSlot]
  split <;> simp [h]

theorem slots_cycleEnd (i : Fin n) :
    m.cycleEnd.slots i =
      if m.cycleActive ∧ ¬m.settingOff then endedSlot (m.slots i) else m.slots i := by
  simp only [cycleEnd]
  cases m.cycleActive with
  | false => simp
  | true =>
    cases m.settingOff with
    | true => simp
    | false =>
      exact Loop.foldl_finRange_apply slots (fun _ => endedSlot) (fun _ => True) (by simp)
        (fun m i _ => m.cycleEndSlot_own i) (fun m i j h => m.cycleEndSlot_other h) _ trivial i

/-- What the end of a cycle leaves of the memory. -/
theorem framed_cycleEnd : Framed { m with cycleActive := false } m.cycleEnd := by
  simp only [cycleEnd]
  split
  · rename_i hno
    exact ⟨rfl, rfl, rfl, by simpa using hno⟩
  · split
    · exact ⟨rfl, rfl, rfl, rfl⟩
    · refine List.foldlRecOn (motive := fun m' : Memory n =>
        Framed { m with cycleActive := false } m') _ _ ⟨rfl, rfl, rfl, rfl⟩ ?_
      intro m' h i _
      have hset : Framed m' (m'.setSlot i (endSlot (m'.slots i))) := ⟨rfl, rfl, rfl, rfl⟩
      simp only [cycleEndSlot]
      split
      · exact (h.trans hset).trans (framed_freeEntry _ i)
      · exact h.trans hset

/-! ## Clearing -/

theorem clearOne_own (i : Fin n) :
    (m.clearOne i).slots i = clearSlot { m.slots i with entry := none } := by
  simp only [clearOne, slots_setSlot_self]
  by_cases h : (m.slots i).entry = none
  · simp only [h, ne_eq, not_true_eq_false, if_false]
    rw [← h]
  · simp [h]

theorem clearOne_other {i j : Fin n} (h : j ≠ i) : (m.clearOne i).slots j = m.slots j := by
  simp only [clearOne, slots_setSlot_of_ne _ h]
  split <;> simp [h]

theorem slots_clearNamed (group : UInt32) (i : Fin n) :
    (m.clearNamed group).slots i =
      if Names group (m.slots i).dtc then clearSlot { m.slots i with entry := none }
      else m.slots i := by
  refine Loop.foldl_finRange_apply slots (fun _ s => if Names group s.dtc then
    clearSlot { s with entry := none } else s) (fun _ => True) (by simp) ?_ ?_ _ trivial i
  · intro m i _
    split
    · exact m.clearOne_own i
    · rfl
  · intro m i j h
    split
    · exact m.clearOne_other h
    · rfl

end Memory

/-! ## Snapshots -/

/-- What taking snapshots can do to a slot: give it an entry while it is pending or confirmed, or
take its entry away. -/
structure Taken (s s' : Slot) : Prop where
  same : s' = { s with entry := s'.entry, snapDue := s'.snapDue }
  entry : s'.entry ≠ none → s.entry ≠ none ∨ Has s.status (pending ||| confirmed)

theorem Taken.refl (s : Slot) : Taken s s := ⟨rfl, .inl⟩

theorem Taken.status {s s' : Slot} (h : Taken s s') : s'.status = s.status := by
  rw [h.same]

theorem Taken.trans {s s' s'' : Slot} (h : Taken s s') (h' : Taken s' s'') : Taken s s'' := by
  constructor
  · rw [h'.same, h.same]
  · intro he
    rcases h'.entry he with he | hp
    · exact h.entry he
    · rw [h.status] at hp
      exact .inr hp

namespace Memory
variable {n : ℕ} (m : Memory n)

@[simp] theorem slots_place_self (i : Fin n) (k : Fin maxEntries) (took : Bool) :
    (m.place i k took).slots i = { m.slots i with entry := some k } := by
  simp [place]
@[simp] theorem slots_place_of_ne {i j : Fin n} (h : j ≠ i) (k : Fin maxEntries) (took : Bool) :
    (m.place i k took).slots j = m.slots j := by
  simp [place, h]

theorem taken_place {i : Fin n} (h : Has (m.slots i).status (pending ||| confirmed))
    (k : Fin maxEntries) (took : Bool) (j : Fin n) :
    Taken (m.slots j) ((m.place i k took).slots j) := by
  by_cases hj : j = i
  · subst hj
    rw [slots_place_self]
    exact ⟨rfl, fun _ => .inr h⟩
  · rw [slots_place_of_ne _ hj]
    exact .refl _

/-- What giving a slot an entry leaves of the memory. -/
theorem taken_allocate {i : Fin n} (h : Has (m.slots i).status (pending ||| confirmed))
    {k : Fin maxEntries} {m' : Memory n} (ha : m.allocate i = some (k, m')) :
    (∀ j, Taken (m.slots j) (m'.slots j)) ∧ Framed m m' := by
  simp only [allocate] at ha
  split at ha
  · simp only [Option.some.injEq, Prod.mk.injEq] at ha
    obtain ⟨-, rfl⟩ := ha
    exact ⟨m.taken_place h _ _, rfl, rfl, rfl, rfl⟩
  · split at ha
    · cases ha
    · rename_i k e _
      simp only [Option.some.injEq, Prod.mk.injEq] at ha
      obtain ⟨-, rfl⟩ := ha
      refine ⟨fun j => ?_, rfl, rfl, rfl, rfl⟩
      -- the displaced slot keeps its status, and the new one has a failure to show
      let m₁ := { m.setSlot e.slot { m.slots e.slot with entry := none } with
        displaced := m.displaced + 1 }
      have hv : ∀ j, Taken (m.slots j) (m₁.slots j) := by
        intro j
        by_cases hj : j = e.slot
        · subst hj
          simp only [m₁, slots_setSlot_self]
          exact ⟨rfl, fun hn => absurd rfl hn⟩
        · simp only [m₁, slots_setSlot_of_ne _ hj]
          exact .refl _
      have hi : Has (m₁.slots i).status (pending ||| confirmed) := by
        rw [(hv i).status]
        exact h
      exact (hv j).trans (m₁.taken_place hi _ _ j)

theorem taken_captureSlot (dids : List (UInt16 × List UInt8)) (i : Fin n) :
    (∀ j, Taken (m.slots j) ((captureSlot dids m i).slots j)) ∧
      Framed m (captureSlot dids m i) := by
  simp only [captureSlot]
  split
  · exact ⟨fun _ => .refl _, .refl m⟩
  · let m₁ := m.setSlot i { m.slots i with snapDue := false }
    have h₁ : ∀ j, Taken (m.slots j) (m₁.slots j) := by
      intro j
      by_cases hj : j = i
      · subst hj
        simp only [m₁, slots_setSlot_self]
        exact ⟨rfl, .inl⟩
      · simp only [m₁, slots_setSlot_of_ne _ hj]
        exact .refl _
    have hf₁ : Framed m m₁ := ⟨rfl, rfl, rfl, rfl⟩
    split
    · exact ⟨h₁, hf₁⟩
    · rename_i hs
      simp only [not_or, not_not] at hs
      split
      · exact ⟨h₁, hf₁⟩
      · rename_i k m₂ ha
        obtain ⟨h₂, hf₂⟩ := m₁.taken_allocate hs.2.2 ha
        have hf := hf₁.trans hf₂
        exact ⟨fun j => (h₁ j).trans (h₂ j), hf.img, hf.store, hf.settingOff, hf.cycleActive⟩

/-- What taking the due snapshots leaves of the memory. -/
theorem taken_capture (dids : List (UInt16 × List UInt8)) :
    (∀ j, Taken (m.slots j) ((m.capture dids).slots j)) ∧ Framed m (m.capture dids) := by
  refine List.foldlRecOn (motive := fun m' : Memory n => (∀ j, Taken (m.slots j) (m'.slots j)) ∧
    Framed m m') _ _ ⟨fun _ => .refl _, .refl m⟩ ?_
  intro m' h i _
  obtain ⟨h', hf⟩ := m'.taken_captureSlot dids i
  exact ⟨fun j => (h.1 j).trans (h' j), h.2.trans hf⟩

end Memory

end BloblyEmb.Fault
