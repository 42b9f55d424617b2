import Mathlib.Algebra.BigOperators.Fin
import BloblyEmb.Nvm.Append

/-!
# Compaction

A compaction copies the live set into the erased partner and keeps what the journal keeps in flash,
whether it succeeds or not. It succeeds when the live set fits a sector.
-/
namespace BloblyEmb.Nvm

/-! ## The live set -/

/-- The records of a row, none when it is free. -/
def live (t : Fin maxBlocks → Entry) (i : Fin maxBlocks) : ℕ :=
  if (t i).present then (t i).records else 0

theorem foldl_live (t : Fin maxBlocks → Entry) (l : List (Fin maxBlocks)) (n : ℕ) :
    l.foldl (fun n i => if (t i).present then n + (t i).records else n) n =
      n + (l.map (live t)).sum := by
  induction l generalizing n with
  | nil => rfl
  | cons i l ih =>
    rw [List.foldl_cons, ih, List.map_cons, List.sum_cons, live]
    split <;> omega

theorem liveRecords_eq (t : Fin maxBlocks → Entry) :
    liveRecords t = 1 + ((List.finRange maxBlocks).map (live t)).sum :=
  foldl_live t _ 1

variable {φ : Type} {ops : FlashOps φ} (hs : Sound ops) {w : World φ}
include hs

/-- The marker. -/
theorem emitMarker_spec (ht : TailBlank ops w) :
    Appended ops w (emitMarker ops w).2 ∧
      ((emitMarker ops w).1 = true → (emitMarker ops w).2.j.cursor = w.j.cursor + 1) ∧
      (Ready ops → w.j.maxSeq < seqCeiling → w.j.cursor + 1 ≤ w.j.slots →
        (emitMarker ops w).1 = true ∧ (emitMarker ops w).2.j.maxSeq = w.j.maxSeq + 1) := by
  unfold emitMarker
  by_cases hroom : roomFor w.j 1
  · have hr : w.j.maxSeq < seqCeiling ∧ w.j.cursor + 1 ≤ w.j.slots := by simpa [roomFor] using hroom
    rw [if_neg (by simp [hroom])]
    have happ0 : Appended ops w w.nextSeq := appended_nextSeq hr.1
    have hspec := programSlot_spec hs (w := w.nextSeq)
      (p := encodeRecord markerBlock 0 w.nextSeq.j.maxSeq fun _ => 0)
      (fun v hv => encodeRecord_seq hv) (happ0.tail ht w.j.cursor (Nat.le_refl _) hr.2)
    dsimp only
    generalize programSlot ops w.nextSeq _ = r at hspec ⊢
    obtain ⟨happ, hj, -, hready⟩ := hspec
    refine ⟨happ0.trans happ, fun _ => by rw [hj]; rfl, fun hrdy _ _ => ⟨hready hrdy, by rw [hj]; rfl⟩⟩
  · rw [if_pos hroom]
    exact ⟨.refl w, fun h => (by cases h), fun _ h1 h2 => absurd (by simp [roomFor, h1, h2]) hroom⟩

/-- A row at the place of its copy is backed there by the same parts. -/
def Copied (ops : FlashOps φ) (f f' : φ) (slots : ℕ) (e : Entry) (target : Fin 2)
    (new : ℕ × UInt32) : Prop :=
  e.chained = true → ∀ parts, Stored ops slots f e parts →
    Stored ops slots f' { e with sector := target, seq := new.2, refOff := new.1 } parts

/-- The copies of the rows `l`. -/
theorem copyAll_spec (l : List (Fin maxBlocks)) (hl : l.Nodup) (news : Fin maxBlocks → ℕ × UInt32)
    (hb : ∀ i, (w.j.table i).present → Backed ops w.j.slots w.flash (w.j.table i))
    (ht : TailBlank ops w) :
    Appended ops w (copyAll ops l news w).2 ∧
      (∀ news', (copyAll ops l news w).1 = some news' →
        (copyAll ops l news w).2.j.cursor = w.j.cursor + (l.map (live w.j.table)).sum ∧
        (∀ i ∉ l, news' i = news i) ∧
        ∀ i ∈ l, (w.j.table i).present → Copied ops w.flash (copyAll ops l news w).2.flash w.j.slots
          (w.j.table i) w.j.active (news' i)) ∧
      (Ready ops → w.j.maxSeq.toNat + l.length ≤ seqCeiling.toNat →
        w.j.cursor + (l.map (live w.j.table)).sum ≤ w.j.slots →
        (copyAll ops l news w).1.isSome ∧
          (copyAll ops l news w).2.j.maxSeq.toNat ≤ w.j.maxSeq.toNat + l.length) := by
  induction l generalizing w news with
  | nil =>
    exact ⟨.refl w, fun news' h => ⟨rfl, fun i _ => by rw [Option.some.inj h], fun i hi => by cases hi⟩,
      fun _ _ _ => ⟨rfl, Nat.le_refl _⟩⟩
  | cons i l ih =>
    obtain ⟨hi, hl⟩ := List.nodup_cons.mp hl
    rw [List.map_cons, List.sum_cons, List.length_cons]
    by_cases hp : (w.j.table i).present
    · have hlive : live w.j.table i = (w.j.table i).records := if_pos hp
      have hspec := emitEntry_spec hs (hb i hp) ht
      rcases he : emitEntry ops (w.j.table i) w with ⟨new, w'⟩
      rw [he] at hspec
      obtain ⟨happ, hsome, hready⟩ := hspec
      dsimp only at happ hsome hready
      cases new with
      | none =>
        have hcons : copyAll ops (i :: l) news w = (none, w') := by rw [copyAll, if_pos hp, he]
        rw [hcons]
        refine ⟨happ, fun news' h => (by cases h), fun hrdy hseq hroom => ?_⟩
        obtain ⟨h, -⟩ := hready hrdy (UInt32.lt_iff_toNat_lt.mpr (by omega)) (by omega)
        cases h
      | some new =>
        obtain ⟨start, seq⟩ := new
        have hcons : copyAll ops (i :: l) news w =
            copyAll ops l (Function.update news i (start, seq)) w' := by rw [copyAll, if_pos hp, he]
        rw [hcons]
        obtain ⟨hcur, hcopy⟩ := hsome start seq rfl
        have hih := ih (w := w') hl (Function.update news i (start, seq))
          (fun j hj => by
            rw [happ.table] at hj ⊢
            rw [happ.slots]
            exact (hb j hj).keeps happ.keeps) (happ.tail ht)
        generalize copyAll ops l (Function.update news i (start, seq)) w' = r' at hih ⊢
        obtain ⟨happ', hsome', hready'⟩ := hih
        refine ⟨happ.trans happ', fun news' h => ?_, fun hrdy hseq hroom => ?_⟩
        · obtain ⟨hcur', hout, hin⟩ := hsome' news' h
          rw [happ.table] at hcur'
          refine ⟨by omega, fun j hj => ?_, fun j hj hpj => ?_⟩
          · rw [hout j fun h => hj (List.mem_cons_of_mem _ h),
              Function.update_of_ne (by rintro rfl; exact hj List.mem_cons_self)]
          · by_cases hji : j = i
            · subst hji
              rw [hout j hi, Function.update_self]
              intro hc parts hst
              exact (hcopy hc parts hst).keeps happ'.keeps
            · have hjl : j ∈ l := (List.mem_cons.mp hj).resolve_left hji
              have hcop := hin j hjl (by rw [happ.table]; exact hpj)
              rw [happ.table, happ.slots, happ.active] at hcop
              intro hc parts hst
              exact hcop hc parts (hst.keeps happ.keeps)
        · obtain ⟨-, hms⟩ := hready hrdy (UInt32.lt_iff_toNat_lt.mpr (by omega)) (by omega)
          have hceil : seqCeiling.toNat = 0xFFFFFF00 := rfl
          have hnat : w'.j.maxSeq.toNat = w.j.maxSeq.toNat + 1 := by
            rw [hms, UInt32.toNat_add]
            have h1 : (1 : UInt32).toNat = 1 := rfl
            omega
          obtain ⟨hdone, hle⟩ := hready' hrdy (by omega) (by rw [happ.table, happ.slots]; omega)
          exact ⟨hdone, by omega⟩
    · have hlive : live w.j.table i = 0 := if_neg hp
      have hcons : copyAll ops (i :: l) news w = copyAll ops l news w := by rw [copyAll, if_neg hp]
      rw [hcons, hlive, Nat.zero_add]
      obtain ⟨happ, hsome, hready⟩ := ih hl news hb ht
      refine ⟨happ, fun news' h => ?_, fun hrdy hseq hroom => ?_⟩
      · obtain ⟨hcur, hout, hin⟩ := hsome news' h
        refine ⟨hcur, fun j hj => hout j fun h => hj (List.mem_cons_of_mem _ h), fun j hj hpj => ?_⟩
        rcases List.mem_cons.mp hj with rfl | hjl
        · exact absurd hpj hp
        · exact hin j hjl hpj
      · obtain ⟨hdone, hle⟩ := hready hrdy (by omega) hroom
        exact ⟨hdone, by omega⟩

omit hs in
/-- Every row holds the value it held: the same block and length, the same bytes when it is plain, and
the same parts, wherever they lie, when it is chained. No record is newer than the last number. -/
structure SameValues (ops : FlashOps φ) (w w' : World φ) : Prop where
  slots : w'.j.slots = w.j.slots
  mounted : w'.j.mounted = w.j.mounted
  overflow : w'.j.poolOverflow = w.j.poolOverflow
  row : ∀ i, (w'.j.table i).present = (w.j.table i).present ∧ (w'.j.table i).id = (w.j.table i).id ∧
    (w'.j.table i).chained = (w.j.table i).chained ∧ (w'.j.table i).len = (w.j.table i).len ∧
      (w'.j.table i).data = (w.j.table i).data
  stored : ∀ i, (w.j.table i).present → (w.j.table i).chained → ∀ parts,
    Stored ops w.j.slots w.flash (w.j.table i) parts →
      Stored ops w'.j.slots w'.flash (w'.j.table i) parts
  bounded : Torn ops → Bounded ops w → Bounded ops w'

omit hs in
theorem SameValues.refl (w : World φ) : SameValues ops w w :=
  ⟨rfl, rfl, rfl, fun _ => ⟨rfl, rfl, rfl, rfl, rfl⟩, fun _ _ _ _ h => h, fun _ h => h⟩

omit hs in
theorem SameValues.trans {w' w'' : World φ} (h : SameValues ops w w') (h' : SameValues ops w' w'') :
    SameValues ops w w'' := by
  refine ⟨h'.slots.trans h.slots, h'.mounted.trans h.mounted, h'.overflow.trans h.overflow,
    fun i => ?_, fun i hp hc parts hst => ?_, fun ht hb => h'.bounded ht (h.bounded ht hb)⟩
  · obtain ⟨h1, h2, h3, h4, h5⟩ := h.row i
    obtain ⟨h1', h2', h3', h4', h5'⟩ := h'.row i
    exact ⟨h1'.trans h1, h2'.trans h2, h3'.trans h3, h4'.trans h4, h5'.trans h5⟩
  · obtain ⟨h1, -, h3, -⟩ := h.row i
    exact h'.stored i (h1.trans hp) (h3.trans hc) parts (h.stored i hp hc parts hst)

omit hs in
/-- Appends leave every value. -/
theorem Appended.sameValues {w' : World φ} (h : Appended ops w w') : SameValues ops w w' := by
  refine ⟨h.slots, by rw [h.fields], by rw [h.fields], fun i => ?_, fun i _ _ parts hst => ?_,
    h.bounded⟩
  · rw [h.table]
    exact ⟨rfl, rfl, rfl, rfl, rfl⟩
  · rw [h.table, h.slots]
    exact hst.keeps h.keeps

omit hs in
/-- Rows that hold the same values are backed again. -/
theorem SameValues.backed {w' : World φ} (h : SameValues ops w w')
    (hb : ∀ i, (w.j.table i).present → Backed ops w.j.slots w.flash (w.j.table i))
    (i : Fin maxBlocks) (hp : (w'.j.table i).present) :
    Backed ops w'.j.slots w'.flash (w'.j.table i) := by
  obtain ⟨h1, h2, h3, h4, -⟩ := h.row i
  have hp' : (w.j.table i).present = true := h1 ▸ hp
  have hbi := hb i hp'
  unfold Backed at hbi ⊢
  rw [h2, h3, h4]
  by_cases hc : (w.j.table i).chained
  · rw [if_pos hc] at hbi ⊢
    obtain ⟨parts, hst⟩ := hbi
    exact ⟨parts, h.stored i hp' hc parts hst⟩
  · rw [if_neg hc] at hbi ⊢
    exact hbi

omit hs in
theorem other_ne (s : Fin 2) : other s ≠ s := by
  revert s
  decide

omit hs in
theorem reverted_spec {w' : World φ} (hinv : Inv ops w) (h : Appended ops w.copying w') :
    Inv ops (w.reverted w') ∧ SameValues ops w (w.reverted w') := by
  have hslots : w'.j.slots = w.j.slots := h.slots
  have htable : w'.j.table = w.j.table := h.table
  have hsame : SameValues ops w (w.reverted w') := by
    refine ⟨hslots, h.mounted, h.overflow, fun i => ?_, fun i _ _ parts hst => ?_, h.bounded⟩
    · change (w'.j.table i).present = _ ∧ (w'.j.table i).id = _ ∧ (w'.j.table i).chained = _ ∧
        (w'.j.table i).len = _ ∧ (w'.j.table i).data = _
      rw [htable]
      exact ⟨rfl, rfl, rfl, rfl, rfl⟩
    · change Stored ops w'.j.slots w'.flash (w'.j.table i) parts
      rw [htable, hslots]
      exact hst.keeps h.keeps
  refine ⟨⟨hsame.backed hinv.backed, fun k hk hlt => ?_, fun hc => ?_, fun hc => ?_, rfl⟩, hsame⟩
  · have hblank := h.blank w.j.active k (.inl (other_ne _).symm)
    refine hblank.trans (hinv.tail k hk ?_)
    rw [← hslots]
    exact hlt
  · cases hc
  · cases hc

omit hs in
theorem switched_spec {w₁ w' : World φ} {news : Fin maxBlocks → ℕ × UInt32} (hinv : Inv ops w)
    (hpart : ∀ k < w.j.slots, ops.slotBlank w.flash (other w.j.active) k = true)
    (h₁ : Appended ops w.copying w₁) (h : Appended ops w₁ w')
    (hcopy : ∀ i, (w.j.table i).present → Copied ops w.flash w₁.flash w.j.slots (w.j.table i)
      (other w.j.active) (news i)) :
    Inv ops (w.switched w' news) ∧ SameValues ops w (w.switched w' news) := by
  have hall := h₁.trans h
  have hslots : w'.j.slots = w.j.slots := hall.slots
  have htable : w'.j.table = w.j.table := hall.table
  have htab : (w.switched w' news).j.table = moved (other w.j.active) news w.j.table := by
    change moved (other w.j.active) news w'.j.table = _
    rw [htable]
  have hsame : SameValues ops w (w.switched w' news) := by
    refine ⟨hslots, hall.mounted, hall.overflow, fun i => ?_, fun i hp hc parts hst => ?_,
      hall.bounded⟩
    · rw [htab, moved]
      by_cases hp : (w.j.table i).present <;> simp [hp]
    · change Stored ops w'.j.slots w'.flash _ parts
      rw [htab, hslots, moved, if_pos hp, if_pos hc]
      exact (hcopy i hp hc parts hst).keeps h.keeps
  have htail : TailBlank ops w' := hall.tail fun k _ hlt => hpart k hlt
  have hfalse : (w.switched w' news).j.partnerClean = false := hall.partnerClean
  exact ⟨⟨hsame.backed hinv.backed, fun k hk hlt => htail k hk hlt,
    fun hc => absurd hc (by simp [hfalse]), fun hc => absurd hc (by simp [hfalse]), rfl⟩, hsame⟩

/-- A compaction into an erased partner. -/
theorem compactInto_spec (hinv : Inv ops w)
    (hpart : ∀ k < w.j.slots, ops.slotBlank w.flash (other w.j.active) k = true) :
    Inv ops (compactInto ops w).2 ∧ SameValues ops w (compactInto ops w).2 ∧
      ((compactInto ops w).1 = true → (compactInto ops w).2.j.cursor ≤ liveRecords w.j.table) ∧
      (compactInto ops w).2.j.maxSeq.toNat ≤ max w.j.maxSeq.toNat seqCeiling.toNat ∧
      (Ready ops → w.j.maxSeq.toNat + maxBlocks + 1 ≤ seqCeiling.toNat →
        liveRecords w.j.table ≤ w.j.slots → (compactInto ops w).1 = true ∧
          (compactInto ops w).2.j.maxSeq.toNat ≤ w.j.maxSeq.toNat + maxBlocks + 1) := by
  have hspec := copyAll_spec hs (w := w.copying) (List.finRange maxBlocks) (List.nodup_finRange _)
    (fun _ => (0, 0)) hinv.backed fun k _ hlt => hpart k hlt
  have hlive : liveRecords w.j.table = 1 + ((List.finRange maxBlocks).map
    (live w.copying.j.table)).sum := liveRecords_eq w.j.table
  have hseq0 : w.copying.j.maxSeq = w.j.maxSeq := rfl
  have hslots0 : w.copying.j.slots = w.j.slots := rfl
  have hcur0 : w.copying.j.cursor = 0 := rfl
  rw [List.length_finRange, hseq0, hslots0, hcur0] at hspec
  unfold compactInto
  generalize copyAll ops (List.finRange maxBlocks) (fun _ => (0, 0)) w.copying = r at hspec ⊢
  obtain ⟨res, w₁⟩ := r
  obtain ⟨happ, hsome, hready⟩ := hspec
  dsimp only at happ hsome hready
  cases res with
  | none =>
    obtain ⟨h1, h2⟩ := reverted_spec hinv happ
    refine ⟨h1, h2, fun h => (by cases h), happ.limit, fun hr hseq hlt => ?_⟩
    obtain ⟨h, -⟩ := hready hr (by omega) (by omega)
    cases h
  | some news =>
    obtain ⟨hcur, -, hcopy⟩ := hsome news rfl
    have hcopy' : ∀ i, (w.j.table i).present → Copied ops w.flash w₁.flash w.j.slots (w.j.table i)
        (other w.j.active) (news i) := fun i hp => hcopy i (List.mem_finRange i) hp
    dsimp only
    by_cases hclean : w.j.tailClean
    · rw [if_pos hclean]
      have hmark := emitMarker_spec hs (happ.tail fun k _ hlt => hpart k hlt)
      generalize emitMarker ops w₁ = r at hmark ⊢
      obtain ⟨ok, w₂⟩ := r
      obtain ⟨happ', hcur', hready'⟩ := hmark
      dsimp only at happ' hcur' hready' ⊢
      have hgo : Ready ops → w.j.maxSeq.toNat + maxBlocks + 1 ≤ seqCeiling.toNat →
          liveRecords w.j.table ≤ w.j.slots →
            ok = true ∧ w₂.j.maxSeq.toNat ≤ w.j.maxSeq.toNat + maxBlocks + 1 := by
        intro hr hseq hlt
        obtain ⟨-, hle⟩ := hready hr (by omega) (by omega)
        obtain ⟨hok, hms⟩ := hready' hr (UInt32.lt_iff_toNat_lt.mpr (by omega)) (by
          rw [happ.slots, hslots0]
          omega)
        have hceil : seqCeiling.toNat = 0xFFFFFF00 := rfl
        have h1 : (1 : UInt32).toNat = 1 := rfl
        refine ⟨hok, ?_⟩
        rw [hms, UInt32.toNat_add]
        omega
      cases ok with
      | true =>
        obtain ⟨h1, h2⟩ := switched_spec hinv hpart happ happ' hcopy'
        refine ⟨h1, h2, fun _ => ?_, (happ.trans happ').limit, hgo⟩
        have := hcur' rfl
        change w₂.j.cursor ≤ _
        omega
      | false =>
        obtain ⟨h1, h2⟩ := reverted_spec hinv (happ.trans happ')
        refine ⟨h1, h2, fun h => (by cases h), (happ.trans happ').limit, fun hr hseq hlt => ?_⟩
        obtain ⟨h, -⟩ := hgo hr hseq hlt
        cases h
    · rw [if_neg hclean]
      obtain ⟨h1, h2⟩ := switched_spec hinv hpart happ (.refl w₁) hcopy'
      refine ⟨h1, h2, fun _ => ?_, happ.limit, fun hr hseq hlt => ⟨rfl, ?_⟩⟩
      · change w₁.j.cursor ≤ _
        omega
      · obtain ⟨-, hle⟩ := hready hr (by omega) (by omega)
        change w₁.j.maxSeq.toNat ≤ _
        omega

end BloblyEmb.Nvm
