import Mathlib.Algebra.Order.BigOperators.Group.Finset
import BloblyEmb.Nvm.Put

/-!
# Headroom

The gate of `put` keeps room for one more copy of the largest live value. While it holds and the
partner is erased, every value of the journal can be written again at its length.
-/
namespace BloblyEmb.Nvm

/-- The live set and one more copy of its largest value fit a sector. -/
def Gate (j : Journal) : Prop := liveRecords j.table + worstOther j.table none 0 ≤ j.slots

/-! ## The largest value -/

theorem foldl_worst_le {t : Fin maxBlocks → Entry} {ei : Option (Fin maxBlocks)}
    (l : List (Fin maxBlocks)) (new n : ℕ) :
    l.foldl (fun worst i => if (t i).present ∧ some i ≠ ei then
      if worst < (t i).records then (t i).records else worst else worst) new ≤ n ↔
      new ≤ n ∧ ∀ i ∈ l, (t i).present → some i ≠ ei → (t i).records ≤ n := by
  induction l generalizing new with
  | nil => simp
  | cons i l ih =>
    rw [List.foldl_cons, ih, List.forall_mem_cons]
    by_cases h : (t i).present ∧ some i ≠ ei
    · obtain ⟨hp, hne⟩ := h
      simp only [hp, hne, ne_eq, not_false_eq_true, and_self, if_true, forall_const]
      split <;> constructor <;> rintro ⟨h1, h2⟩
      · exact ⟨by omega, h1, h2⟩
      · exact ⟨h2.1, h2.2⟩
      · exact ⟨h1, by omega, h2⟩
      · exact ⟨h1, h2.2⟩
    · rw [if_neg h]
      refine and_congr_right fun _ => ⟨fun h' => ⟨fun h1 h2 => absurd ⟨h1, h2⟩ h, h'⟩, fun h' => h'.2⟩

theorem worstOther_le {t : Fin maxBlocks → Entry} {ei : Option (Fin maxBlocks)} {new n : ℕ} :
    worstOther t ei new ≤ n ↔
      new ≤ n ∧ ∀ i, (t i).present → some i ≠ ei → (t i).records ≤ n := by
  rw [worstOther, foldl_worst_le]
  simp

theorem worst_le {t : Fin maxBlocks → Entry} {n : ℕ} :
    worstOther t none 0 ≤ n ↔ ∀ i, (t i).present → (t i).records ≤ n := by
  rw [worstOther_le]
  simp

theorem records_le_worst {t : Fin maxBlocks → Entry} {i : Fin maxBlocks}
    (h : (t i).present = true) : (t i).records ≤ worstOther t none 0 :=
  worst_le.mp (Nat.le_refl _) i h

/-! ## The live set after a write -/

/-- The live set is that of the other rows and that of one row. -/
theorem liveRecords_split (t : Fin maxBlocks → Entry) (i : Fin maxBlocks) :
    liveRecords t = 1 + (live t i + ∑ j ∈ Finset.univ.erase i, live t j) := by
  rw [liveRecords_eq, Finset.add_sum_erase _ _ (Finset.mem_univ i), Fin.sum_univ_def]

theorem liveRecords_update {t t' : Fin maxBlocks → Entry} {i : Fin maxBlocks}
    (h : ∀ j ≠ i, (t' j).present = (t j).present ∧ (t' j).records = (t j).records) :
    liveRecords t' + live t i = liveRecords t + live t' i := by
  have hsum : ∑ j ∈ Finset.univ.erase i, live t' j = ∑ j ∈ Finset.univ.erase i, live t j := by
    refine Finset.sum_congr rfl fun j hj => ?_
    obtain ⟨h1, h2⟩ := h j (Finset.ne_of_mem_erase hj)
    rw [live, live, h1, h2]
  rw [liveRecords_split t i, liveRecords_split t' i, hsum]
  omega

variable {φ : Type} {ops : FlashOps φ} {w w' : World φ}

theorem Value.records {i : Fin maxBlocks} {id : UInt16} {data : List UInt8}
    (h : Value ops w i id data) : (w.j.table i).records = recordsFor data.length := by
  rw [Entry.records, h.len, h.chained, recordsFor]
  by_cases hlong : dataMax < data.length
  · simp [hlong, Nat.not_le.mpr hlong]
  · simp [hlong, Nat.not_lt.mp hlong]

/-- The gate after a write is what `put` checks before it. -/
theorem gate_of_written {block : UInt16} {data : List UInt8} {i : Fin maxBlocks}
    (h : Written ops w w' block data i) (hroom : headroom w.j block data.length = true) :
    Gate w'.j := by
  have hlive : liveRecords w'.j.table + live w.j.table i = liveRecords w.j.table +
      live w'.j.table i := liveRecords_update fun j hne =>
    ⟨(h.others j hne).1.1, (h.others j hne).1.2.1⟩
  have hnew : live w'.j.table i = recordsFor data.length := by
    rw [live, if_pos h.value.present, h.value.records]
  have hold : live w.j.table i ≤ liveRecords w.j.table := by
    rw [liveRecords_split w.j.table i]
    omega
  have hworst : worstOther w'.j.table none 0 ≤
      worstOther w.j.table (find w.j.table block) (recordsFor data.length) := by
    obtain ⟨hle, hall⟩ := worstOther_le.mp (Nat.le_refl (worstOther w.j.table
      (find w.j.table block) (recordsFor data.length)))
    refine worst_le.mpr fun j hp => ?_
    by_cases hji : j = i
    · subst hji
      rw [h.value.records]
      exact hle
    · obtain ⟨⟨h1, h2, -⟩, -⟩ := h.others j hji
      rw [h2]
      refine hall j (h1 ▸ hp) fun hf => ?_
      have hrow := slotFor_of_find hf.symm
      rw [h.row] at hrow
      exact hji (Option.some.inj hrow).symm
  unfold Gate
  rw [h.slots]
  rcases slotFor_some h.row with hf | ⟨hf, hfree⟩
  · have hlivei : live w.j.table i = (w.j.table i).records := if_pos (find_some hf).1
    simp only [headroom, hf, decide_eq_true_eq] at hroom
    rw [hf] at hworst
    omega
  · have hlivei : live w.j.table i = 0 := by
      rw [live, if_neg]
      simp [hfree]
    simp only [headroom, hf, Nat.sub_zero, decide_eq_true_eq] at hroom
    rw [hf] at hworst
    omega

/-- While the gate holds, it lets a value be written again at its length. -/
theorem Gate.headroom (h : Gate w.j) {block : UInt16} {i : Fin maxBlocks}
    (hf : find w.j.table block = some i) {len : ℕ}
    (hlen : (w.j.table i).records = recordsFor len) : headroom w.j block len = true := by
  have hp := (find_some hf).1
  have hworst : worstOther w.j.table (some i) (recordsFor len) ≤ worstOther w.j.table none 0 := by
    rw [worstOther_le, ← hlen]
    exact ⟨records_le_worst hp, fun j hpj _ => records_le_worst hpj⟩
  have hold : (w.j.table i).records ≤ liveRecords w.j.table := by
    have := liveRecords_split w.j.table i
    rw [live, if_pos hp] at this
    omega
  simp only [Nvm.headroom, hf, decide_eq_true_eq]
  unfold Gate at h
  omega

/-- The gate speaks of the values only. -/
theorem gate_congr (hslots : w'.j.slots = w.j.slots) (h : ∀ i, (w'.j.table i).present = true →
    (w.j.table i).present = true ∧ (w'.j.table i).records = (w.j.table i).records)
    (hg : Gate w.j) : Gate w'.j := by
  have hlive : liveRecords w'.j.table ≤ liveRecords w.j.table := by
    rw [liveRecords_eq, liveRecords_eq, ← Fin.sum_univ_def, ← Fin.sum_univ_def]
    refine Nat.add_le_add_left (Finset.sum_le_sum fun i _ => ?_) _
    unfold live
    by_cases hp : (w'.j.table i).present
    · obtain ⟨h1, h2⟩ := h i hp
      rw [if_pos hp, if_pos h1, h2]
    · rw [if_neg hp]
      exact Nat.zero_le _
  have hworst : worstOther w'.j.table none 0 ≤ worstOther w.j.table none 0 := by
    refine worst_le.mpr fun i hp => ?_
    obtain ⟨h1, h2⟩ := h i hp
    rw [h2]
    exact records_le_worst h1
  unfold Gate at *
  omega

theorem SameValues.records (h : SameValues ops w w') (i : Fin maxBlocks) :
    (w'.j.table i).records = (w.j.table i).records := by
  obtain ⟨-, -, h3, h4, -⟩ := h.row i
  rw [Entry.records, Entry.records, h3, h4]

theorem SameValues.gate (h : SameValues ops w w') (hg : Gate w.j) : Gate w'.j :=
  gate_congr h.slots (fun i hp => ⟨(h.row i).1 ▸ hp, h.records i⟩) hg

/-! ## Puts -/

section Put

variable (hs : Sound ops)
include hs

theorem put_spec (hinv : Inv ops w) (block : UInt16) (data : List UInt8) :
    Inv ops (put ops block data w).2 ∧
      ((put ops block data w).1 = false → SameValues ops w (put ops block data w).2) ∧
      ((put ops block data w).1 = true → Gate (put ops block data w).2.j ∧
        ∃ i, Written ops w (put ops block data w).2 block data i) := by
  unfold put
  by_cases h1 : ¬w.j.mounted ∨ block = markerBlock ∨ block = idReserved
  · rw [if_pos h1]
    exact ⟨hinv, fun _ => .refl w, fun h => by cases h⟩
  · rw [if_neg h1]
    by_cases h2 : data.length = 0 ∨ chainDataMax < data.length
    · rw [if_pos h2]
      exact ⟨hinv, fun _ => .refl w, fun h => by cases h⟩
    · rw [if_neg h2]
      by_cases h3 : ¬headroom w.j block data.length
      · rw [if_pos h3]
        exact ⟨hinv, fun _ => .refl w, fun h => by cases h⟩
      · rw [if_neg h3]
        obtain ⟨hinv', hfail, hok, -⟩ := append_spec hs hinv block data
          (by push Not at h1; exact h1.2) (by omega)
        refine ⟨hinv', hfail, fun h => ?_⟩
        obtain ⟨i, hw⟩ := hok h
        exact ⟨gate_of_written hw (by simpa using h3), i, hw⟩

/-- A value of the journal written again, at its length. -/
theorem rewrite_spec (hinv : Inv ops w) (hg : Gate w.j) (hr : Ready ops)
    (hm : w.j.mounted = true) (hp : w.j.partnerClean = true) (ho : w.j.poolOverflow = false)
    (hseq : w.j.maxSeq.toNat + maxBlocks + 1 < seqCeiling.toNat) {block : UInt16}
    {i : Fin maxBlocks} (hf : find w.j.table block = some i) {data : List UInt8}
    (hlen : data.length = (w.j.table i).len) (hne : data ≠ []) :
    (put ops block data w).1 = true := by
  obtain ⟨hpi, hid⟩ := find_some hf
  have hb := hinv.backed i hpi
  obtain ⟨hmark, hres, hmax⟩ := hb.block
  rw [hid] at hmark hres
  have hrec : (w.j.table i).records = recordsFor data.length := by rw [hb.records, hlen]
  have hhead := hg.headroom hf hrec
  have hpos : data.length ≠ 0 := by simpa using hne
  unfold put
  rw [if_neg (by simp [hm, hmark, hres]), if_neg (by omega), if_neg (by simp [hhead])]
  have hroom : liveRecords w.j.table + recordsFor data.length ≤ w.j.slots := by
    have := records_le_worst hpi
    unfold Gate at hg
    omega
  refine (append_spec hs hinv block data ⟨hmark, hres⟩ (by omega)).2.2.2 hr hm hp ho hseq hroom ?_
  rw [slotFor_of_find hf]
  rfl

end Put

end BloblyEmb.Nvm
