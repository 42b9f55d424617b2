import Mathlib.Algebra.BigOperators.Group.Finset.Basic
import Mathlib.Data.Fintype.BigOperators
import BloblyEmb.Fault.Snapshots

/-!
# What a DTC may still write

How many first tests, first failures and snapshots a DTC may still bring about before the next cycle
begins or the next clear is done. Each operation pays for what it uses up: a cycle and a clear give
every DTC one of each, and no displacement gives one back, since a DTC that failed in this cycle
keeps its snapshot until the cycle is over.
-/
namespace BloblyEmb.Fault

/-- The part of a slot that its record in the image shows, but for the occurrences. -/
def Slot.gist (s : Slot) : UInt32 × UInt16 × UInt16 × UInt8 × Bool × Bool × UInt8 × UInt8 :=
  (s.dtc, s.snapId, s.snapIdB, s.status &&& persistedBits, s.testedCycle, s.failedCycle,
    s.failedCycles, s.agingCount)

/-- In a cycle a tested DTC is marked tested, and a failed one is pending and ages no more. -/
structure Marked (s : Slot) : Prop where
  tested : s.testedCycle = true → ¬Has s.status notCompletedSinceClear
  failed : s.failedCycle = true →
    Has s.status pending ∧ Has s.status failedSinceClear ∧ s.agingCount = 0

/-! ## A report -/

/-- What a report can do to a slot, besides to the protocol and the occurrences. -/
structure Ticks (s s' : Slot) : Prop where
  hot : Has s.status testFailedThisCycle → Has s'.status testFailedThisCycle
  due : s'.snapDue = s.snapDue ∨ (Has s'.status testFailedThisCycle ∧ s.entry = none)
  tested : s.testedCycle = true → s'.testedCycle = true
  failed : s.failedCycle = true → s'.failedCycle = true
  marked : Marked s → Marked s'
  gist : Marked s → s'.testedCycle = s.testedCycle → s'.failedCycle = s.failedCycle →
    s'.gist = s.gist

namespace Ticks

/-- A change of the occurrences and the protocol alone. -/
theorem of_same {s s' : Slot} (hst : s'.status = s.status) (hd : s'.snapDue = s.snapDue)
    (ht : s'.testedCycle = s.testedCycle) (hf : s'.failedCycle = s.failedCycle)
    (hfc : s'.failedCycles = s.failedCycles) (hac : s'.agingCount = s.agingCount)
    (hs : SameBlocks s s') : Ticks s s' where
  hot := hst ▸ id
  due := .inl hd
  tested := ht ▸ id
  failed := hf ▸ id
  marked h := ⟨fun hx => hst ▸ h.tested (ht ▸ hx), fun hx => by
    rw [hst, hac]
    exact h.failed (hf ▸ hx)⟩
  gist _ _ _ := by simp only [Slot.gist, hst, ht, hf, hfc, hac, hs.dtc, hs.snapId, hs.snapIdB]

theorem trans {s s' s'' : Slot} (h : Ticks s s') (h' : Ticks s' s'') (he : s'.entry = s.entry) :
    Ticks s s'' where
  hot := h'.hot ∘ h.hot
  due := by
    rcases h'.due with hd | ⟨ht, hn⟩
    · rcases h.due with hd' | ⟨ht, hn⟩
      · exact .inl (hd.trans hd')
      · exact .inr ⟨h'.hot ht, hn⟩
    · exact .inr ⟨ht, he ▸ hn⟩
  tested := h'.tested ∘ h.tested
  failed := h'.failed ∘ h.failed
  marked := h'.marked ∘ h.marked
  gist hm ht hf := by
    have ht₁ : s'.testedCycle = s.testedCycle := by
      cases hx : s.testedCycle with
      | true => exact h.tested hx
      | false =>
        rw [hx] at ht
        cases hy : s'.testedCycle with
        | false => rfl
        | true => rw [h'.tested hy] at ht; cases ht
    have hf₁ : s'.failedCycle = s.failedCycle := by
      cases hx : s.failedCycle with
      | true => exact h.failed hx
      | false =>
        rw [hx] at hf
        cases hy : s'.failedCycle with
        | false => rfl
        | true => rw [h'.failed hy] at hf; cases hf
    rw [h'.gist (h.marked hm) (ht.trans ht₁.symm) (hf.trans hf₁.symm), h.gist hm ht₁ hf₁]

theorem tested_slot (s : Slot) (failed : Bool) : Ticks s (s.tested failed) := by
  have hb : ∀ (b : UInt8) (f : Bool),
      let b' := b &&& ~~~(notCompletedSinceClear ||| notCompletedThisCycle)
      let t := if f then b' ||| testFailed else b' &&& ~~~testFailed
      (Has b testFailedThisCycle → Has t testFailedThisCycle) ∧ ¬Has t notCompletedSinceClear ∧
        (Has b pending → Has t pending) ∧ (Has b failedSinceClear → Has t failedSinceClear) ∧
        (¬Has b notCompletedSinceClear → t &&& persistedBits = b &&& persistedBits) := by
    decide +kernel
  obtain ⟨hhot, hnc, hp, hfs, hgist⟩ := hb s.status failed
  refine ⟨hhot, .inl rfl, fun _ => rfl, id, fun hm => ⟨fun _ => hnc, fun hf => ?_⟩,
    fun hm ht _ => ?_⟩
  · obtain ⟨h₁, h₂, h₃⟩ := hm.failed hf
    exact ⟨hp h₁, hfs h₂, h₃⟩
  · have htested : s.testedCycle = true := ht.symm
    simp only [Slot.gist, Slot.tested, hgist (hm.tested htested), htested]

theorem failure_slot (s : Slot) (df : UInt16) : Ticks s (s.failure df) ∧
    (s.failure df).failedCycle = true := by
  have hb : ∀ b : UInt8,
      let t := b ||| (testFailedThisCycle ||| pending ||| failedSinceClear)
      Has t testFailedThisCycle ∧ Has (t ||| confirmed) testFailedThisCycle ∧
        (¬Has b notCompletedSinceClear → ¬Has t notCompletedSinceClear ∧
          ¬Has (t ||| confirmed) notCompletedSinceClear) ∧
        Has t pending ∧ Has (t ||| confirmed) pending ∧ Has t failedSinceClear ∧
        Has (t ||| confirmed) failedSinceClear ∧
        (Has b pending → Has b failedSinceClear → t &&& persistedBits = b &&& persistedBits) := by
    decide +kernel
  obtain ⟨hh, hhc, hn, hp, hpc, hf, hfc, hgist⟩ := hb s.status
  -- the failure without its occurrences
  have hcount : ∀ t : Slot, t.status = s.status ||| (testFailedThisCycle ||| pending |||
      failedSinceClear) → t.testedCycle = s.testedCycle → t.failedCycle = s.failedCycle →
      t.failedCycles = s.failedCycles → SameBlocks s t →
      (t.snapDue = s.snapDue ∨ s.entry = none) →
      Ticks s { t.countCycle with agingCount := 0 } ∧
        ({ t.countCycle with agingCount := 0 } : Slot).failedCycle = true := by
    intro t hst htc hfc' hfcs hs hdue
    simp only [Slot.countCycle]
    split
    · rename_i hfail
      refine ⟨⟨fun _ => by rw [hst]; exact hh, ?_, htc ▸ id, fun _ => hfail,
        fun hm => ⟨fun hx => ?_, fun _ => ?_⟩, fun hm _ _ => ?_⟩, hfail⟩
      · rcases hdue with hd | hd
        · exact .inl hd
        · exact .inr ⟨by rw [hst]; exact hh, hd⟩
      · rw [hst]
        exact (hn (hm.tested (htc ▸ hx))).1
      · rw [hst]
        exact ⟨hp, hf, rfl⟩
      · obtain ⟨h₁, h₂, h₃⟩ := hm.failed (hfc' ▸ hfail)
        simp only [Slot.gist, hst, htc, hfc', hfcs, hs.dtc, hs.snapId, hs.snapIdB, hgist h₁ h₂, h₃]
    · rename_i hnew
      generalize (if t.failedCycles < 255 then t.failedCycles + 1 else t.failedCycles) = k
      have hst' : ∀ mask : UInt8, Has (s.status ||| (testFailedThisCycle ||| pending |||
          failedSinceClear)) mask → Has ((s.status ||| (testFailedThisCycle ||| pending |||
          failedSinceClear)) ||| confirmed) mask →
          Has (if t.confirmAt ≤ k then t.status ||| confirmed else t.status) mask := by
        intro mask h₁ h₂
        rw [hst]
        split
        · exact h₂
        · exact h₁
      refine ⟨⟨fun _ => hst' _ hh hhc, ?_, htc ▸ id, fun _ => rfl,
        fun hm => ⟨fun hx => ?_, fun _ => ⟨hst' _ hp hpc, hst' _ hf hfc, rfl⟩⟩, fun _ _ hx => ?_⟩,
        rfl⟩
      · rcases hdue with hd | hd
        · exact .inl hd
        · exact .inr ⟨hst' _ hh hhc, hd⟩
      · obtain ⟨h₁, h₂⟩ := hn (hm.tested (htc ▸ hx))
        dsimp only
        rw [hst]
        split
        · exact h₂
        · exact h₁
      · -- the first failure of the cycle marks the slot
        rw [← hfc'] at hx
        exact absurd hx.symm hnew
  simp only [Slot.failure]
  split
  · refine hcount _ rfl rfl rfl rfl ⟨rfl, rfl, rfl, rfl⟩ ?_
    dsimp only
    split
    · rename_i hd
      exact .inr hd.2
    · exact .inl rfl
  · exact hcount _ rfl rfl rfl rfl ⟨rfl, rfl, rfl, rfl⟩ (.inl rfl)

theorem count (s : Slot) (failed : Bool) (df dt : UInt16) : Ticks s (s.count failed df dt) := by
  have htested : Ticks s (if 0 < dt then s.tested failed else s) := by
    split
    · exact tested_slot s failed
    · exact .of_same rfl rfl rfl rfl rfl rfl (.refl s)
  simp only [Slot.count]
  split
  · refine htested.trans (failure_slot _ df).1 ?_
    split <;> rfl
  · exact htested

/-- A report, and whether it can do anything. -/
theorem consume (s : Slot) (off active : Bool) (r : Report) :
    Ticks s (s.consume off active r) ∧
      (off = true ∨ active = false → (s.consume off active r).status = s.status ∧
        (s.consume off active r).snapDue = s.snapDue ∧
        (s.consume off active r).testedCycle = s.testedCycle ∧
        (s.consume off active r).failedCycle = s.failedCycle ∧
        (s.consume off active r).gist = s.gist) := by
  have hrefl : ∀ t : Slot, t.status = s.status → t.snapDue = s.snapDue →
      t.testedCycle = s.testedCycle → t.failedCycle = s.failedCycle →
      t.failedCycles = s.failedCycles → t.agingCount = s.agingCount → SameBlocks s t →
      Ticks s t ∧ (off = true ∨ active = false → t.status = s.status ∧ t.snapDue = s.snapDue ∧
        t.testedCycle = s.testedCycle ∧ t.failedCycle = s.failedCycle ∧ t.gist = s.gist) :=
    fun t h₁ h₂ h₃ h₄ h₅ h₆ h₇ => ⟨.of_same h₁ h₂ h₃ h₄ h₅ h₆ h₇, fun _ => ⟨h₁, h₂, h₃, h₄, by
      simp only [Slot.gist, h₁, h₃, h₄, h₅, h₆, h₇.dtc, h₇.snapId, h₇.snapIdB]⟩⟩
  simp only [Slot.consume]
  split
  · split
    · exact hrefl _ rfl rfl rfl rfl rfl rfl ⟨rfl, rfl, rfl, rfl⟩
    · exact hrefl _ rfl rfl rfl rfl rfl rfl ⟨rfl, rfl, rfl, rfl⟩
  · split
    · exact hrefl _ rfl rfl rfl rfl rfl rfl ⟨rfl, rfl, rfl, rfl⟩
    · split
      · exact hrefl _ rfl rfl rfl rfl rfl rfl ⟨rfl, rfl, rfl, rfl⟩
      · rename_i hrun
        have hbase : Ticks s { s with
            seenGen := r.gen, baseFails := r.fails, baseTests := r.tests, baseSeen := true } :=
          .of_same rfl rfl rfl rfl rfl rfl ⟨rfl, rfl, rfl, rfl⟩
        refine ⟨hbase.trans (count _ _ _ _) rfl, fun hx => absurd ?_ hrun⟩
        rcases hx with hx | hx
        · exact .inl hx
        · exact .inr (.inl (by simp [hx]))

end Ticks

/-! ## What may still come -/

theorem sum_bump {n : ℕ} (f : Fin n → ℕ) (i : Fin n) :
    ∑ j, Function.update f i (f i + 1) j = ∑ j, f j + 1 := by
  rw [Finset.sum_update_of_mem (Finset.mem_univ i), ← Finset.add_sum_erase _ f (Finset.mem_univ i),
    Finset.sdiff_singleton_eq_erase]
  omega

namespace Memory
variable {n : ℕ}

/-- Slot `i` may yet complete its first test of the cycle. -/
def untested (m : Memory n) (i : Fin n) : ℕ :=
  if m.cycleActive = true ∧ (m.slots i).testedCycle = false then 1 else 0

/-- Slot `i` may yet fail for the first time in the cycle. -/
def unfailed (m : Memory n) (i : Fin n) : ℕ :=
  if m.cycleActive = true ∧ (m.slots i).failedCycle = false then 1 else 0

/-- Slot `i` failed in this cycle, and keeps its snapshot to the end of it. -/
def Hot (m : Memory n) (i : Fin n) : Prop :=
  Has (m.slots i).status testFailedThisCycle ∧ m.boundaryOff = false

instance (m : Memory n) (i : Fin n) : Decidable (m.Hot i) := inferInstanceAs (Decidable (_ ∧ _))

/-- A snapshot of slot `i` is due, or taken and not written. -/
def Waits (m : Memory n) (i : Fin n) : Prop :=
  (m.slots i).snapDue = true ∨ ((m.slots i).entry ≠ none ∧ m.durableBlock i = none)

instance (m : Memory n) (i : Fin n) : Decidable (m.Waits i) := inferInstanceAs (Decidable (_ ∨ _))

/-- The snapshots a DTC may yet write before the next cycle or clear: in a cycle, whether it failed
in it, waits with a snapshot, and has none written. -/
def needOf (active hot waits bare : Bool) : ℕ :=
  if active then (if hot then (if bare then 1 else 0) else if waits then 2 else 1)
  else if waits then 1 else 0

def need (m : Memory n) (i : Fin n) : ℕ :=
  needOf m.cycleActive (m.Hot i) (m.Waits i) (m.durableBlock i = none)

/-- What the memory keeps to besides its entries and claims. -/
structure Tidy (m : Memory n) : Prop where
  off : m.boundaryOff = true → m.settingOff = true
  due : ∀ i, (m.slots i).snapDue = true → (m.slots i).entry = none
  marked : m.cycleActive = true → ∀ i, Marked (m.slots i)

/-- What a step lets a DTC do once more, at most `k` times. -/
structure Costs (m m' : Memory n) (k : ℕ) : Prop where
  untested : ∀ i, m'.untested i ≤ m.untested i + k
  unfailed : ∀ i, m'.unfailed i ≤ m.unfailed i + k
  need : ∀ i, m'.need i ≤ m.need i + k

theorem durableBlock_none {m : Memory n} {i : Fin n} (h : (m.slots i).entry = none) :
    m.durableBlock i = none := by
  rw [durableBlock, h]

theorem durableBlock_congr {m m' : Memory n} {i : Fin n}
    (hs : (m'.slots i).entry = (m.slots i).entry) (he : m'.entries = m.entries) :
    m'.durableBlock i = m.durableBlock i := by
  simp only [durableBlock, hs, he]

/-- A waiting DTC has no written snapshot. -/
theorem Waits.durable {m : Memory n} (ht : m.Tidy) {i : Fin n} (h : m.Waits i) :
    m.durableBlock i = none := by
  rcases h with hd | ⟨-, hd⟩
  · exact durableBlock_none (ht.due i hd)
  · exact hd

/-- What has been used up so far stays within what cycles and clears gave, and the snapshots that
waited at the beginning. -/
structure Quota (c : Memory n) (waiting : Fin n → ℕ) (m : Memory n) (e : ℕ)
    (tests fails snaps : Fin n → ℕ) : Prop where
  test : ∀ i, tests i + m.untested i ≤ e
  fail : ∀ i, fails i + m.unfailed i ≤ e
  snap : ∀ i, snaps i + m.need i ≤ e + waiting i
  bare : ∀ i, (c.slots i).freeze = [] → snaps i = 0

section
variable {c m m' : Memory n} {i : Fin n} {e k : ℕ} {waiting tests fails snaps : Fin n → ℕ}

theorem Costs.refl (m : Memory n) : Costs m m 0 := ⟨fun _ => le_rfl, fun _ => le_rfl, fun _ => le_rfl⟩

theorem Quota.of_costs (h : Quota c waiting m e tests fails snaps) (hc : Costs m m' k) :
    Quota c waiting m' (e + k) tests fails snaps where
  test i := by
    have := h.test i
    have := hc.untested i
    omega
  fail i := by
    have := h.fail i
    have := hc.unfailed i
    omega
  snap i := by
    have := h.snap i
    have := hc.need i
    omega
  bare := h.bare

theorem Costs.trans {m'' : Memory n} {k' : ℕ} (h : Costs m m' k) (h' : Costs m' m'' k') :
    Costs m m'' (k + k') where
  untested i := by
    have := h.untested i
    have := h'.untested i
    omega
  unfailed i := by
    have := h.unfailed i
    have := h'.unfailed i
    omega
  need i := by
    have := h.need i
    have := h'.need i
    omega

/-- The bounds on what a DTC needs. -/
theorem need_bounds (ht : m.Tidy) (i : Fin n) :
    (if m.Waits i then 1 else 0) ≤ m.need i ∧ m.need i ≤ (if m.Waits i then 1 else 0) + 1 := by
  have hb : ∀ a h w b : Bool, (w = true → b = true) → (if w = true then 1 else 0) ≤ needOf a h w b ∧
      needOf a h w b ≤ (if w = true then 1 else 0) + 1 := by
    decide
  have := hb m.cycleActive (m.Hot i) (m.Waits i) (m.durableBlock i = none) (fun hw => by
    simp only [decide_eq_true_eq] at hw ⊢
    exact hw.durable ht)
  simpa only [need, decide_eq_true_eq] using this

theorem need_eq (ha : m'.cycleActive = m.cycleActive) (hh : m'.Hot i ↔ m.Hot i)
    (hw : m'.Waits i ↔ m.Waits i) (hd : m'.durableBlock i = m.durableBlock i) :
    m'.need i = m.need i := by
  simp only [need, ha, hd, decide_eq_decide.mpr hh, decide_eq_decide.mpr hw]

/-- What a DTC needs is read off its slot and its entry. -/
theorem need_same (ha : m'.cycleActive = m.cycleActive) (hb : m'.boundaryOff = m.boundaryOff)
    (hs : (m'.slots i).entry = (m.slots i).entry) (he : m'.entries = m.entries)
    (hst : (m'.slots i).status = (m.slots i).status)
    (hd : (m'.slots i).snapDue = (m.slots i).snapDue) : m'.need i = m.need i := by
  have hdb := durableBlock_congr hs he
  apply need_eq ha _ _ hdb
  · simp only [Hot, hst, hb]
  · simp only [Waits, hd, hs, hdb]

/-- Whatever begins anew gives each DTC one of each. -/
theorem Costs.of_waits (ht : m.Tidy) (ht' : m'.Tidy) (hw : ∀ i, m'.Waits i → m.Waits i) :
    Costs m m' 1 where
  untested i := by
    simp only [Memory.untested]
    split <;> omega
  unfailed i := by
    simp only [Memory.unfailed]
    split <;> omega
  need i := by
    have h₁ := (need_bounds ht' i).2
    have h₂ := (need_bounds ht i).1
    by_cases hx : m'.Waits i
    · rw [if_pos hx] at h₁
      rw [if_pos (hw i hx)] at h₂
      omega
    · rw [if_neg hx] at h₁
      omega

/-- Outside a cycle a DTC needs no more than what waits. -/
theorem Costs.of_idle (ht : m.Tidy) (ha : m'.cycleActive = false)
    (hw : ∀ i, m'.Waits i → m.Waits i) : Costs m m' 0 where
  untested i := by
    simp only [Memory.untested, ha]
    simp
  unfailed i := by
    simp only [Memory.unfailed, ha]
    simp
  need i := by
    have h₁ := (need_bounds ht i).1
    have h₂ : m'.need i = if m'.Waits i then 1 else 0 := by
      simp only [Memory.need, ha, needOf, Bool.false_eq_true, if_false, decide_eq_true_eq]
    by_cases hx : m'.Waits i
    · rw [if_pos (hw i hx)] at h₁
      rw [h₂, if_pos hx]
      exact h₁
    · rw [h₂, if_neg hx]
      omega

/-! ## Reports -/

theorem consume_slot (m : Memory n) (i : Fin n) (r : Report) (j : Fin n) (h : j ≠ i) :
    (m.consume i r).slots j = m.slots j := slots_setSlot_of_ne _ h _

theorem tidy_consume (ht : m.Tidy) (i : Fin n) (r : Report) : (m.consume i r).Tidy := by
  obtain ⟨htick, hidle⟩ := Ticks.consume (m.slots i) m.settingOff m.cycleActive r
  have hentry := (SameFrame.consume (m.slots i) m.settingOff m.cycleActive r).entry
  refine ⟨ht.off, fun j hd => ?_, fun ha j => ?_⟩
  · by_cases hj : j = i
    · subst hj
      rw [Memory.consume, slots_setSlot_self] at hd ⊢
      rw [hentry]
      rcases htick.due with h | ⟨-, h⟩
      · exact ht.due j (h ▸ hd)
      · exact h
    · rw [m.consume_slot i r j hj] at hd ⊢
      exact ht.due j hd
  · by_cases hj : j = i
    · subst hj
      rw [Memory.consume, slots_setSlot_self]
      exact htick.marked (ht.marked ha j)
    · rw [m.consume_slot i r j hj]
      exact ht.marked ha j

theorem need_consume (ht : m.Tidy) (i : Fin n) (r : Report) (j : Fin n) :
    (m.consume i r).need j ≤ m.need j := by
  obtain ⟨htick, hidle⟩ := Ticks.consume (m.slots i) m.settingOff m.cycleActive r
  have hentry := (SameFrame.consume (m.slots i) m.settingOff m.cycleActive r).entry
  by_cases hj : j = i
  · subst hj
    have hslot : (m.consume j r).slots j = (m.slots j).consume m.settingOff m.cycleActive r :=
      slots_setSlot_self _ _ _
    have hdb : (m.consume j r).durableBlock j = m.durableBlock j :=
      durableBlock_congr (by rw [hslot]; exact hentry) rfl
    by_cases hq : m.settingOff = true ∨ m.cycleActive = false
    · obtain ⟨hst, hd, -, -, -⟩ := hidle hq
      have heq : (m.consume j r).need j = m.need j :=
        need_same rfl rfl (hslot ▸ hentry) rfl (hslot ▸ hst) (hslot ▸ hd)
      exact heq.le
    · simp only [not_or, Bool.not_eq_true, Bool.not_eq_false] at hq
      have hboff : m.boundaryOff = false := by
        cases hb : m.boundaryOff with
        | false => rfl
        | true =>
          have := ht.off hb
          rw [hq.1] at this
          cases this
      have hact : (m.consume j r).cycleActive = true := hq.2
      by_cases hhot : (m.consume j r).Hot j
      · have hle : ∀ h w w' b : Bool, needOf true true w' b ≤ needOf true h w b := by decide
        simp only [need, hact, hq.2, decide_eq_true hhot, hdb]
        apply hle
      · -- no failure is counted: the DTC waits as it did
        have hcold : ¬m.Hot j := by
          intro hh
          apply hhot
          refine ⟨?_, hh.2⟩
          rw [hslot]
          exact htick.hot hh.1
        have hdue : ((m.consume j r).slots j).snapDue = (m.slots j).snapDue := by
          rw [hslot]
          rcases htick.due with h | ⟨h, -⟩
          · exact h
          · exact absurd ⟨by rw [hslot]; exact h, hboff⟩ hhot
        have hent : ((m.consume j r).slots j).entry = (m.slots j).entry := hslot ▸ hentry
        have hw : (m.consume j r).Waits j ↔ m.Waits j := by
          simp only [Waits, hdb, hdue, hent]
        have heq : (m.consume j r).need j = m.need j := need_eq rfl (by tauto) hw hdb
        exact heq.le
  · have hslot := m.consume_slot i r j hj
    have heq : (m.consume i r).need j = m.need j :=
      need_same rfl rfl (by rw [hslot]) rfl (by rw [hslot]) (by rw [hslot])
    exact heq.le

/-- A report uses up a first test, a first failure, or nothing that an image shows at once. -/
theorem Quota.consume (h : Quota c waiting m e tests fails snaps) (ht : m.Tidy) (i : Fin n) (r : Report) :
    ∃ tests' fails' : Fin n → ℕ, ∃ k, Quota c waiting (m.consume i r) e tests' fails' snaps ∧
      ∑ j, tests' j + ∑ j, fails' j = ∑ j, tests j + ∑ j, fails j + k ∧
      (k = 0 → ∀ j, ((m.consume i r).slots j).gist = (m.slots j).gist) := by
  obtain ⟨htick, hidle⟩ := Ticks.consume (m.slots i) m.settingOff m.cycleActive r
  have hslot : (m.consume i r).slots i = (m.slots i).consume m.settingOff m.cycleActive r :=
    slots_setSlot_self _ _ _
  have hactive : (m.consume i r).cycleActive = m.cycleActive := rfl
  -- one counter and its flag: the flag is raised at most once, and pays
  have hone : ∀ (f : Fin n → ℕ) (get : Slot → Bool) (left : Memory n → Fin n → ℕ),
      (∀ x j, left x j = if x.cycleActive = true ∧ get (x.slots j) = false then 1 else 0) →
      (get (m.slots i) = true → get ((m.consume i r).slots i) = true) →
      (m.cycleActive = false → get ((m.consume i r).slots i) = get (m.slots i)) →
      (∀ j, f j + left m j ≤ e) →
      ∃ f' : Fin n → ℕ, ∃ k, (∀ j, f' j + left (m.consume i r) j ≤ e) ∧
        ∑ j, f' j = ∑ j, f j + k ∧
        (k = 0 → get ((m.consume i r).slots i) = get (m.slots i)) := by
    intro f get left hleft hup hoff hf
    by_cases hflip : get ((m.consume i r).slots i) = get (m.slots i)
    · refine ⟨f, 0, fun j => ?_, rfl, fun _ => hflip⟩
      have := hf j
      rw [hleft] at this ⊢
      by_cases hj : j = i
      · subst hj
        rwa [hflip, hactive]
      · rwa [m.consume_slot i r j hj, hactive]
    · have hwas : get (m.slots i) = false := by
        cases hx : get (m.slots i) with
        | false => rfl
        | true => exact absurd ((hup hx).trans hx.symm) hflip
      have hnow : get ((m.consume i r).slots i) = true := by
        cases hx : get ((m.consume i r).slots i) with
        | true => rfl
        | false => exact absurd (hx.trans hwas.symm) hflip
      have hact : m.cycleActive = true := by
        cases hx : m.cycleActive with
        | true => rfl
        | false => exact absurd (hoff hx) hflip
      refine ⟨Function.update f i (f i + 1), 1, fun j => ?_, sum_bump f i, fun h0 => by cases h0⟩
      have := hf j
      rw [hleft] at this ⊢
      by_cases hj : j = i
      · subst hj
        rw [Function.update_self, hnow]
        rw [if_pos ⟨hact, hwas⟩] at this
        simpa using this
      · rwa [Function.update_of_ne hj, m.consume_slot i r j hj, hactive]
  obtain ⟨tests', k₁, ht', hs₁, hk₁⟩ := hone tests Slot.testedCycle untested (fun _ _ => rfl)
    (by rw [hslot]; exact htick.tested) (fun hx => by rw [hslot]; exact (hidle (.inr hx)).2.2.1)
    h.test
  obtain ⟨fails', k₂, hf', hs₂, hk₂⟩ := hone fails Slot.failedCycle unfailed (fun _ _ => rfl)
    (by rw [hslot]; exact htick.failed) (fun hx => by rw [hslot]; exact (hidle (.inr hx)).2.2.2.1)
    h.fail
  refine ⟨tests', fails', k₁ + k₂, ⟨ht', hf', fun j => ?_, h.bare⟩, by omega, fun h0 j => ?_⟩
  · have := h.snap j
    have := need_consume ht i r j
    omega
  · by_cases hj : j = i
    · subst hj
      rw [hslot]
      cases ha : m.cycleActive with
      | false => 
        rw [← ha]
        exact (hidle (.inr ha)).2.2.2.2
      | true =>
        rw [← ha]
        apply htick.gist (ht.marked ha j)
        · rw [← hslot]
          exact hk₁ (by omega)
        · rw [← hslot]
          exact hk₂ (by omega)
    · rw [m.consume_slot i r j hj]

/-! ## Dropping entries -/

/-- Some entries are dropped, the others stay as they are. -/
structure Frees (m m' : Memory n) : Prop where
  boundaryOff : m'.boundaryOff = m.boundaryOff
  due : ∀ i, (m'.slots i).snapDue = true → (m.slots i).snapDue = true
  held : ∀ i, (m'.slots i).entry = none ∨
    ((m'.slots i).entry = (m.slots i).entry ∧ m'.durableBlock i = m.durableBlock i)

namespace Frees
variable {m'' : Memory n}

theorem refl (m : Memory n) : Frees m m := ⟨rfl, fun _ => id, fun _ => .inr ⟨rfl, rfl⟩⟩

theorem trans (h : Frees m m') (h' : Frees m' m'') : Frees m m'' where
  boundaryOff := h'.boundaryOff.trans h.boundaryOff
  due i := h.due i ∘ h'.due i
  held i := by
    rcases h'.held i with hn | ⟨he', hd'⟩
    · exact .inl hn
    · rcases h.held i with hn | ⟨he, hd⟩
      · exact .inl (he'.trans hn)
      · exact .inr ⟨he'.trans he, hd'.trans hd⟩

/-- The slots change in nothing that ties them to their snapshots. -/
theorem of_slots (hb : m'.boundaryOff = m.boundaryOff) (he : m'.entries = m.entries)
    (hs : ∀ i, (m'.slots i).entry = (m.slots i).entry)
    (hd : ∀ i, (m'.slots i).snapDue = true → (m.slots i).snapDue = true) : Frees m m' :=
  ⟨hb, hd, fun i => .inr ⟨hs i, durableBlock_congr (hs i) he⟩⟩

theorem waits (h : Frees m m') {i : Fin n} (hw : m'.Waits i) : m.Waits i := by
  rcases hw with hd | ⟨hne, hd⟩
  · exact .inl (h.due i hd)
  · rcases h.held i with hn | ⟨he, hb⟩
    · exact absurd hn hne
    · right
      rw [← he, ← hb]
      exact ⟨hne, hd⟩

theorem entry_none (h : Frees m m') {i : Fin n} (hn : (m.slots i).entry = none) :
    (m'.slots i).entry = none := by
  rcases h.held i with hn' | ⟨he, -⟩
  · exact hn'
  · exact he.trans hn

theorem freeEntry {seam : Seam} {C : Fin n → List UInt8 → Prop} {st : Store}
    (h : Linked c seam C m st) (i : Fin n) : Frees m (m.freeEntry i) := by
  have hb : (m.freeEntry i).boundaryOff = m.boundaryOff := by
    simp only [Memory.freeEntry]
    split <;> rfl
  refine ⟨hb, fun j hd => ?_, fun j => ?_⟩
  · by_cases hj : j = i
    · subst hj
      rwa [slots_freeEntry_self] at hd
    · rwa [slots_freeEntry_of_ne _ hj] at hd
  · by_cases hj : j = i
    · subst hj
      left
      rw [slots_freeEntry_self]
    · right
      have hslot := m.slots_freeEntry_of_ne hj
      refine ⟨by rw [hslot], ?_⟩
      simp only [durableBlock, hslot]
      cases hk : (m.slots j).entry with
      | none => rfl
      | some k =>
        obtain ⟨e, he, hs⟩ := (h.entry j k).mp hk
        have he' := (h.entries_freeEntry i k e).mpr ⟨he, fun hi => hj (hs.symm.trans hi)⟩
        simp only [he, he']

/-- Nothing more is due in a memory without a cycle. -/
theorem tidy_idle (h : Frees m m') (ht : m.Tidy) (hoff : m'.settingOff = m.settingOff)
    (ha : m'.cycleActive = false) : m'.Tidy where
  off hb := hoff.trans (ht.off (h.boundaryOff ▸ hb))
  due i hd := h.entry_none (ht.due i (h.due i hd))
  marked hact := by
    rw [ha] at hact
    cases hact

end Frees

/-! ## Cycles, the setting and clears -/

theorem snapDue_endSlot (s : Slot) : (endSlot s).snapDue = s.snapDue := by
  simp only [endSlot]
  repeat' split
  all_goals rfl

variable {seam : Seam} {C : Fin n → List UInt8 → Prop} {st : Store}

theorem frees_cycleEndSlot (h : Linked c seam C m st) (i : Fin n) :
    Frees m (m.cycleEndSlot i) := by
  have hframe := SameFrame.endSlot (m.slots i)
  have h₁ : Linked c seam C (m.setSlot i (endSlot (m.slots i))) st :=
    h.of_frames (sameFrame_setSlot hframe) rfl rfl
  have hset : Frees m (m.setSlot i (endSlot (m.slots i))) := by
    refine Frees.of_slots rfl rfl (fun j => (sameFrame_setSlot hframe j).entry) fun j hd => ?_
    rw [slots_setSlot] at hd
    split at hd
    · rename_i hj
      rwa [hj, ← snapDue_endSlot]
    · exact hd
  simp only [cycleEndSlot]
  split
  · exact hset.trans (.freeEntry h₁ i)
  · exact hset

theorem frees_cycleEnd (h : Linked c seam C m st) : Frees m m.cycleEnd := by
  have hflag : ∀ m' : Memory n, m'.boundaryOff = m.boundaryOff → m'.slots = m.slots →
      m'.entries = m.entries → Frees m m' := fun m' hb hs he =>
    .of_slots hb he (fun i => by rw [hs]) fun i hd => hs ▸ hd
  simp only [cycleEnd]
  split
  · exact hflag _ rfl rfl rfl
  · split
    · exact hflag _ rfl rfl rfl
    · have hloop : ∀ m₀ : Memory n, Linked c seam C m₀ st → Frees m m₀ →
          Linked c seam C (m₀.each cycleEndSlot) st ∧ Frees m (m₀.each cycleEndSlot) := by
        intro m₀ h₀ hf₀
        refine List.foldlRecOn (motive := fun m' => Linked c seam C m' st ∧ Frees m m') _ _
          ⟨h₀, hf₀⟩ ?_
        intro m' h' i _
        exact ⟨h'.1.cycleEndSlot i, h'.2.trans (frees_cycleEndSlot h'.1 i)⟩
      refine (hloop _ ?_ ?_).2
      · exact h.of_eq rfl rfl rfl
      · exact hflag _ rfl rfl rfl

theorem cycleActive_cycleEnd (m : Memory n) : m.cycleEnd.cycleActive = false :=
  m.framed_cycleEnd.cycleActive

/-- The end of a cycle gives nothing back. -/
theorem tidy_cycleEnd (h : Linked c seam C m st) (ht : m.Tidy) :
    m.cycleEnd.Tidy ∧ Costs m m.cycleEnd 0 := by
  have hf := frees_cycleEnd h
  have ha := m.cycleActive_cycleEnd
  exact ⟨hf.tidy_idle ht m.framed_cycleEnd.settingOff ha, .of_idle ht ha fun i => hf.waits⟩

/-- What the beginning of a cycle does once the cycle before is over. -/
theorem cycleStart_cases (m : Memory n) : ∃ m₁ m₂ : Memory n,
    (m₁ = ({ m with ending := false } : Memory n).cycleEnd ∨ m₁ = { m with ending := false }) ∧
    m₂.slots = m₁.slots ∧ m₂.entries = m₁.entries ∧ m₂.settingOff = m₁.settingOff ∧
    (m₂.boundaryOff = true → m₁.settingOff = true ∨ m₁.boundaryOff = true) ∧
    m.cycleStart = { m₂ with
      cycleActive := true
      slots := fun i => { m₂.slots i with
        status := if m₂.settingOff then (m₂.slots i).status else restartBits (m₂.slots i).status
        failedCycle := false
        testedCycle := false } } := by
  let m₀ : Memory n := { m with ending := false }
  let m₁ := if m₀.cycleActive then m₀.cycleEnd else m₀
  let m₂ := if m₁.settingOff then { m₁ with boundaryOff := true } else m₁
  refine ⟨m₁, m₂, ?_, ?_, ?_, ?_, ?_, rfl⟩
  · by_cases ha : m₀.cycleActive = true
    · exact .inl (if_pos ha)
    · exact .inr (if_neg ha)
  all_goals
    by_cases hoff : m₁.settingOff = true
    · simp only [m₂, if_pos hoff, hoff, true_or, implies_true]
    · simp only [m₂, if_neg hoff]
      try exact .inr

/-- The memory at the end of the cycle before. -/
theorem frees_cycleStart (h : Linked c seam C m st) {m₁ : Memory n}
    (hm₁ : m₁ = ({ m with ending := false } : Memory n).cycleEnd ∨ m₁ = { m with ending := false }) :
    Frees m m₁ ∧ m₁.settingOff = m.settingOff := by
  have h₀ : Frees m { m with ending := false } := .of_slots rfl rfl (fun _ => rfl) fun _ => id
  rcases hm₁ with rfl | rfl
  · have hl : Linked c seam C { m with ending := false } st := h.of_eq rfl rfl rfl
    exact ⟨h₀.trans (frees_cycleEnd hl), (framed_cycleEnd { m with ending := false }).settingOff⟩
  · exact ⟨h₀, rfl⟩

theorem waits_cycleStart (h : Linked c seam C m st) {i : Fin n} (hw : m.cycleStart.Waits i) :
    m.Waits i := by
  obtain ⟨m₁, m₂, hm₁, hslots, hent, -, -, heq⟩ := m.cycleStart_cases
  apply (frees_cycleStart h hm₁).1.waits
  have hdb : m.cycleStart.durableBlock i = m₁.durableBlock i := by
    rw [heq]
    exact durableBlock_congr (by rw [hslots]) hent
  simp only [Waits, hdb] at hw ⊢
  rw [heq, hslots] at hw
  exact hw

theorem tidy_cycleStart (h : Linked c seam C m st) (ht : m.Tidy) :
    m.cycleStart.Tidy ∧ Costs m m.cycleStart 1 := by
  have htidy : m.cycleStart.Tidy := by
    obtain ⟨m₁, m₂, hm₁, hslots, hent, hoff, hb, heq⟩ := m.cycleStart_cases
    have hf := frees_cycleStart h hm₁
    rw [heq]
    refine ⟨fun h => ?_, fun i hd => ?_, fun _ i => ⟨fun hx => (by cases hx), fun hx => (by cases hx)⟩⟩
    · change m₂.settingOff = true
      rw [hoff, hf.2]
      rcases hb h with h | h
      · exact hf.2 ▸ h
      · exact ht.off (hf.1.boundaryOff ▸ h)
    · dsimp only at hd ⊢
      rw [hslots] at hd ⊢
      exact hf.1.entry_none (ht.due i (hf.1.due i hd))
  exact ⟨htidy, .of_waits ht htidy fun i => waits_cycleStart h⟩

/-- What switching on does to a slot. -/
theorem switchOn_slot (s : Slot) (boundary : Bool) : (switchOn s boundary).entry = s.entry ∧
    (switchOn s boundary).snapDue = s.snapDue ∧
    (switchOn s boundary).testedCycle = s.testedCycle ∧
    (switchOn s boundary).failedCycle = s.failedCycle ∧
    (switchOn s boundary).agingCount = s.agingCount ∧
    (switchOn s boundary).status = if boundary then restartBits s.status else s.status := by
  cases boundary <;> by_cases h : s.canRenew <;> simp [switchOn, Slot.renew, h]

theorem tidy_setSetting (ht : m.Tidy) (on : Bool) :
    (m.setSetting on).Tidy ∧ Costs m (m.setSetting on) 0 ∧
      ((on = true ∧ m.settingOff = true ∨ on = false ∧ m.settingOff = false) ∨
        m.setSetting on = m) := by
  have hbits : ∀ b : UInt8, (Has (restartBits b) notCompletedSinceClear ↔
      Has b notCompletedSinceClear) ∧ (Has (restartBits b) pending ↔ Has b pending) ∧
      (Has (restartBits b) failedSinceClear ↔ Has b failedSinceClear) ∧
      ¬Has (restartBits b) testFailedThisCycle := by
    decide +kernel
  by_cases hon : on = true ∧ m.settingOff = true
  · obtain ⟨rfl, hoff⟩ := hon
    let boundary := m.boundaryOff && m.cycleActive
    have hslot := fun s => switchOn_slot s boundary
    have heq : m.setSetting true = { m with
        slots := fun i => switchOn (m.slots i) boundary, boundaryOff := false,
        settingOff := false } := by
      simp only [setSetting, hoff]
      rfl
    have hmarked : ∀ i, Marked (m.slots i) → Marked (switchOn (m.slots i) boundary) := by
      intro i hm
      obtain ⟨-, -, htc, hfc, hac, hst⟩ := hslot (m.slots i)
      obtain ⟨h₁, h₂, h₃, -⟩ := hbits (m.slots i).status
      refine ⟨fun hx => ?_, fun hx => ?_⟩
      · rw [htc] at hx
        rw [hst]
        split
        · rw [h₁]
          exact hm.tested hx
        · exact hm.tested hx
      · rw [hfc] at hx
        rw [hst, hac]
        split
        · rw [h₂, h₃]
          exact hm.failed hx
        · exact hm.failed hx
    rw [heq]
    refine ⟨⟨fun hb => (by cases hb), fun i hd => ?_, fun ha i => hmarked i (ht.marked ha i)⟩,
      ⟨fun i => ?_, fun i => ?_, fun i => ?_⟩, .inl (.inl ⟨rfl, hoff⟩)⟩
    · obtain ⟨h₁, h₂, -⟩ := hslot (m.slots i)
      dsimp only at hd ⊢
      rw [h₁]
      exact ht.due i (h₂ ▸ hd)
    · simp only [Memory.untested, (hslot (m.slots i)).2.2.1]
      exact le_rfl
    · simp only [Memory.unfailed, (hslot (m.slots i)).2.2.2.1]
      exact le_rfl
    · obtain ⟨h₁, h₂, -, -, -, hst⟩ := hslot (m.slots i)
      rw [← heq]
      have hslots : (m.setSetting true).slots i = switchOn (m.slots i) boundary := by rw [heq]
      have hent : ((m.setSetting true).slots i).entry = (m.slots i).entry := by rw [hslots, h₁]
      have hdb : (m.setSetting true).durableBlock i = m.durableBlock i :=
        durableBlock_congr hent (by rw [heq])
      have hw : (m.setSetting true).Waits i ↔ m.Waits i := by
        simp only [Waits, hdb, hent]
        rw [hslots, h₂]
      have hact : (m.setSetting true).cycleActive = m.cycleActive := by rw [heq]
      cases ha : m.cycleActive with
      | false =>
        simp only [need, hact, ha, needOf, hw]
        exact le_rfl
      | true =>
        -- the boundary that passed while the setting was off is made up for
        have hh : (m.setSetting true).Hot i ↔ m.Hot i := by
          simp only [Hot, hslots, hst]
          rw [heq]
          cases hb : m.boundaryOff with
          | false => simp [boundary, hb]
          | true => simp [boundary, hb, ha, (hbits (m.slots i).status).2.2.2]
        exact (need_eq hact hh hw hdb).le
  · have hslots : (m.setSetting on) = { m with settingOff := !on } := by
      simp only [setSetting, if_neg (show ¬(on = true ∧ m.settingOff = true) from hon)]
    rw [hslots]
    refine ⟨⟨fun hb => ?_, ht.due, ht.marked⟩, ⟨fun i => le_rfl, fun i => le_rfl, fun i => le_rfl⟩, ?_⟩
    · have := ht.off hb
      cases on with
      | false => rfl
      | true => exact absurd ⟨rfl, this⟩ hon
    · cases on with
      | false =>
        cases hoff : m.settingOff with
        | false => exact .inl (.inr ⟨rfl, rfl⟩)
        | true =>
          right
          rw [Bool.not_false, ← hoff]
      | true =>
        cases hoff : m.settingOff with
        | false =>
          right
          rw [Bool.not_true, ← hoff]
        | true => exact absurd ⟨rfl, hoff⟩ hon

/-! ## Clears -/

theorem frees_clearOne (h : Linked c seam C m st) (i : Fin n) :
    Linked c seam C (m.clearOne i) st ∧ Frees m (m.clearOne i) := by
  have hfree : Linked c seam C (if (m.slots i).entry ≠ none then m.freeEntry i else m) st ∧
      Frees m (if (m.slots i).entry ≠ none then m.freeEntry i else m) := by
    split
    · exact ⟨h.freeEntry i, .freeEntry h i⟩
    · exact ⟨h, .refl m⟩
  simp only [clearOne]
  revert hfree
  generalize (if (m.slots i).entry ≠ none then m.freeEntry i else m) = m₁
  intro hfree
  have hframe : SameFrame (m₁.slots i) (clearSlot (m₁.slots i)) := .of_eq rfl
  refine ⟨hfree.1.of_frames (sameFrame_setSlot hframe) rfl rfl, hfree.2.trans ?_⟩
  refine .of_slots rfl rfl (fun j => (sameFrame_setSlot hframe j).entry) fun j hd => ?_
  rw [slots_setSlot] at hd
  split at hd
  · cases hd
  · exact hd

theorem frees_clearNamed (h : Linked c seam C m st) (group : UInt32) :
    Frees m (m.clearNamed group) := by
  refine (List.foldlRecOn (motive := fun m' => Linked c seam C m' st ∧ Frees m m') _ _
    ⟨h, .refl m⟩ ?_).2
  intro m' h' i _
  split
  · obtain ⟨hl, hf⟩ := frees_clearOne h'.1 i
    exact ⟨hl, h'.2.trans hf⟩
  · exact h'

theorem tidy_clearNamed (h : Linked c seam C m st) (ht : m.Tidy) (group : UInt32) :
    (m.clearNamed group).Tidy ∧ Costs m (m.clearNamed group) 1 := by
  have hf := frees_clearNamed h group
  have hframe := m.framed_clearNamed group
  have htidy : (m.clearNamed group).Tidy := by
    refine ⟨fun hb => ?_, fun i hd => ?_, fun ha i => ?_⟩
    · rw [hframe.settingOff]
      exact ht.off (hf.boundaryOff ▸ hb)
    · exact hf.entry_none (ht.due i (hf.due i hd))
    · rw [slots_clearNamed]
      split
      · exact ⟨fun hx => (by cases hx), fun hx => (by cases hx)⟩
      · exact ht.marked (hframe.cycleActive ▸ ha) i
  exact ⟨htidy, .of_waits ht htidy fun i => hf.waits⟩

/-! ## Starts -/

theorem boundaryOff_freeEntry (m : Memory n) (i : Fin n) :
    (m.freeEntry i).boundaryOff = m.boundaryOff := by
  simp only [freeEntry]
  split <;> rfl

theorem boundaryOff_restoreRecord (st : Store) (m : Memory n) (r : ℕ) :
    (restoreRecord st m r).boundaryOff = m.boundaryOff := by
  simp only [restoreRecord]
  split
  · rfl
  · rename_i i _
    have hload : ∀ m' ∈ (if m.img.getD 0 0 = imageV4 then none else
        ((m.takeRecord i r).slots i).claim.bind ((m.takeRecord i r).loadSnapshot st i)),
        m'.boundaryOff = m.boundaryOff := by
      intro m' hm'
      split at hm'
      · cases hm'
      · obtain ⟨b, -, hb⟩ := Option.bind_eq_some_iff.mp hm'
        obtain ⟨k, stamp, data, next, -, rfl⟩ := loadSnapshot_eq hb
        rfl
    split
    · rename_i m' heq
      exact hload m' heq
    · split <;> rfl

theorem boundaryOff_fitEntries (m : Memory n) : m.fitEntries.boundaryOff = m.boundaryOff := by
  have hdrop : ∀ fuel (m : Memory n), (dropEntries fuel m).boundaryOff = m.boundaryOff := by
    intro fuel
    induction fuel with
    | zero => exact fun _ => rfl
    | succ fuel ih =>
      intro m
      simp only [dropEntries]
      split
      · rfl
      · split
        · rfl
        · exact (ih _).trans (boundaryOff_freeEntry _ _)
  refine List.foldlRecOn (motive := fun x : Memory n × ℕ => x.1.boundaryOff = m.boundaryOff) _ _
    (hdrop maxEntries m) ?_
  rintro ⟨m', next⟩ h k _
  simp only [packEntry]
  split
  · exact h
  · split
    · split <;> exact h
    · exact h

theorem boundaryOff_readImage (m : Memory n) (st : Store) (img : List UInt8) :
    (m.readImage st img).boundaryOff = m.boundaryOff := by
  simp only [readImage]
  split
  · rw [boundaryOff_fitEntries]
    refine List.foldlRecOn (motive := fun m' : Memory n => m'.boundaryOff = m.boundaryOff) _ _ rfl ?_
    intro m' h r _
    exact (boundaryOff_restoreRecord st m' r).trans h
  · rfl

/-- The entry of a slot, where every snapshot is written. -/
theorem durableBlock_of_durable (h : Linked c seam C m st)
    (hdur : ∀ k e, m.entries k = some e → e.durable = true) {i : Fin n}
    (hne : (m.slots i).entry ≠ none) : m.durableBlock i ≠ none := by
  obtain ⟨k, hk⟩ := Option.ne_none_iff_exists'.mp hne
  obtain ⟨e, he, -⟩ := (h.entry i k).mp hk
  simp [durableBlock, hk, he, hdur k e he]

/-- After a start nothing waits. -/
theorem tidy_boot (hb : c.Blocks seam.id) (hs : m.store = some seam) (hd : m.Distinct)
    (hcfg : ∀ i, SameBlocks (c.slots i) (checkBlocks (m.slots i)))
    (hok : IsImage (storedImage st seam) → c.StoredOk C (storedImage st seam) st.blocks) :
    (Node.boot m st).mem.Tidy ∧ ∀ i, ¬(Node.boot m st).mem.Waits i := by
  have hs' : m.init.store = some seam := hs
  obtain ⟨hlinked, hdur, -⟩ := linked_readImage hb hs hcfg hok
  obtain ⟨hframe, hfound⟩ := restore_spec st hs' rfl rfl hd (fun _ => rfl) (fun _ => rfl)
  have hdue : ∀ i, ((m.init.restore st).slots i).snapDue = false := by
    intro i
    obtain ⟨s, hf, heq⟩ := hfound i
    have hcheck : (checkBlocks (m.init.slots i)).snapDue = false := by
      rw [show m.init.slots i = (m.slots i).init from rfl, checkBlocks_init]
      rfl
    have hsd : s.snapDue = false := by
      rcases hf.slot with ⟨ha, -⟩ | ⟨r, -, -, ha⟩
      · rw [ha]
        exact hcheck
      · rw [ha]
        exact hcheck
    rw [heq]
    split
    · simp only [endedSlot]
      split
      · exact (snapDue_endSlot s).trans hsd
      · exact (snapDue_endSlot s).trans hsd
    · exact hsd
  have hbound : (m.init.restore st).boundaryOff = false ∧
      ∀ i, ((m.init.restore st).slots i).entry ≠ none →
        (m.init.restore st).durableBlock i ≠ none := by
    have hread := boundaryOff_readImage m.init.checkSlots st (storedImage st seam)
    rw [restore_eq hs']
    revert hlinked hdur hread
    generalize m.init.checkSlots.readImage st (storedImage st seam) = m₁
    intro hlinked hdur hread
    have hwritten : ∀ i, (m₁.liveBlocks st i).entry ≠ none →
        ({ m₁ with slots := m₁.liveBlocks st } : Memory n).durableBlock i ≠ none := by
      intro i hne
      have he := (m₁.alike_liveBlocks st i).2
      have hdb : ({ m₁ with slots := m₁.liveBlocks st } : Memory n).durableBlock i =
          m₁.durableBlock i := durableBlock_congr he rfl
      rw [hdb]
      exact durableBlock_of_durable hlinked hdur (he ▸ hne)
    have hb₁ : m₁.boundaryOff = false := hread
    dsimp only
    split
    · have hl : ∀ m₃ : Memory n, m₃.slots = m₁.liveBlocks st → m₃.entries = m₁.entries →
          m₃.store = m₁.store → Linked c seam C m₃ st := by
        intro m₃ h₁ h₂ h₃
        refine hlinked.of_same (fun i => ?_) h₂ h₃ fun i b hlive => ?_
        · rw [h₁]
          exact (m₁.sameHold_liveBlocks st i).1
        · rw [h₁] at hlive
          by_cases hf : (m₁.slots i).freeze = []
          · rw [(m₁.sameHold_liveBlocks st i).2 hf] at hlive
            exact .inl hlive
          · have hlen := hlinked.live_blocks hdur hf hlive
            rw [(hlinked.config i).freeze] at hf
            exact .inr ⟨hf, hlen⟩
      let off := decide (Has ((storedImage st seam).getD 1 0) imgSettingOff)
      let m₃ : Memory n := { m₁ with
        slots := m₁.liveBlocks st, cycleActive := true, settingOff := off }
      have hf := frees_cycleEnd (hl m₃ rfl rfl rfl)
      refine ⟨hf.boundaryOff.trans hb₁, fun i hne => ?_⟩
      rcases hf.held i with hn | ⟨he, hdb⟩
      · exact absurd hn hne
      · have hne' : (m₁.liveBlocks st i).entry ≠ none := by
          change (m₃.slots i).entry ≠ none
          rw [← he]
          exact hne
        change m₃.cycleEnd.durableBlock i ≠ none
        rw [hdb]
        exact hwritten i hne'
    · exact ⟨hb₁, hwritten⟩
  refine ⟨⟨fun hx => ?_, fun i hx => ?_, fun hx => ?_⟩, fun i hw => ?_⟩
  · rw [show (Node.boot m st).mem.boundaryOff = false from hbound.1] at hx
    cases hx
  · rw [show ((Node.boot m st).mem.slots i).snapDue = false from hdue i] at hx
    cases hx
  · rw [show (Node.boot m st).mem.cycleActive = false from hframe.cycleActive] at hx
    cases hx
  · rcases hw with hx | ⟨hne, hx⟩
    · rw [show ((Node.boot m st).mem.slots i).snapDue = false from hdue i] at hx
      cases hx
    · exact hbound.2 i hne hx

end

end Memory

end BloblyEmb.Fault
