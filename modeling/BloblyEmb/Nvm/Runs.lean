import BloblyEmb.Nvm.Mount

/-!
# Runs of the journal

Every operation keeps the invariant and, but for the block that is put and the blocks that are
pruned, every value, so both hold after any run that a mount begins.
-/
namespace BloblyEmb.Nvm

variable {φ : Type} {ops : FlashOps φ} {w w' : World φ}

/-! ## Stray values -/

/-- What `rehome_strays` leaves as it is. -/
structure Rehomed (ops : FlashOps φ) (w w' : World φ) : Prop where
  inv : Inv ops w'
  same : SameValues ops w w'
  active : w'.j.active = w.j.active
  partnerClean : w'.j.partnerClean = w.j.partnerClean
  pendingErase : w'.j.pendingErase = w.j.pendingErase

theorem Rehomed.refl (h : Inv ops w) : Rehomed ops w w := ⟨h, .refl w, rfl, rfl, rfl⟩

theorem Rehomed.trans {w'' : World φ} (h : Rehomed ops w w') (h' : Rehomed ops w' w'') :
    Rehomed ops w w'' :=
  ⟨h'.inv, h.same.trans h'.same, h'.active.trans h.active, h'.partnerClean.trans h.partnerClean,
    h'.pendingErase.trans h.pendingErase⟩

theorem Appended.pendingErase (h : Appended ops w w') : w'.j.pendingErase = w.j.pendingErase := by
  rw [h.fields]

theorem Appended.rehomed (h : Appended ops w w') (hinv : Inv ops w) : Rehomed ops w w' :=
  ⟨hinv.appended h, h.sameValues, h.active, h.partnerClean, h.pendingErase⟩

/-- The verdict on the tail is free. -/
theorem Rehomed.tailed (h : Rehomed ops w w') (b : Bool) :
    Rehomed ops w { w' with j := { w'.j with tailClean := b } } :=
  ⟨⟨h.inv.backed, h.inv.tail, h.inv.partner, h.inv.pending, h.inv.idle⟩,
    ⟨h.same.slots, h.same.mounted, h.same.overflow, h.same.row, h.same.stored, h.same.bounded⟩,
    h.active,
    h.partnerClean, h.pendingErase⟩

/-- The row of an entry at its new place. -/
def Entry.movedTo (e : Entry) (target : Fin 2) (off : ℕ) (seq : UInt32) : Entry :=
  { e with
    sector := target
    seq := seq
    refOff := if e.chained then off else e.refOff }

/-- A row is moved to where its copy lies. -/
theorem rehomed_update (hinv : Inv ops w) (happ : Appended ops w w') {i : Fin maxBlocks} {off : ℕ}
    {seq : UInt32} (hcopy : (w.j.table i).chained = true → ∀ parts,
      Stored ops w.j.slots w.flash (w.j.table i) parts → Stored ops w.j.slots w'.flash
        { w.j.table i with sector := w.j.active, seq := seq, refOff := off } parts) :
    Rehomed ops w (w'.tabled (Function.update w'.j.table i
      ((w'.j.table i).movedTo w'.j.active off seq))) := by
  have hinv' := hinv.appended happ
  have hsame : SameValues ops w (w'.tabled (Function.update w'.j.table i
      ((w'.j.table i).movedTo w'.j.active off seq))) := by
    rw [happ.table]
    refine ⟨happ.slots, happ.mounted, happ.overflow, fun k => ?_, fun k hp hc parts hst => ?_,
      happ.bounded⟩
    · by_cases hk : k = i
      · subst hk
        simp [Entry.movedTo]
      · simp [Function.update_of_ne hk]
    · by_cases hk : k = i
      · subst hk
        have := hcopy hc parts hst
        change Stored ops w'.j.slots w'.flash (Function.update w.j.table k _ k) parts
        simp only [Function.update_self, Entry.movedTo, hc, if_true]
        rw [happ.slots, happ.active]
        exact ⟨this.chain, this.range, this.blank⟩
      · change Stored ops w'.j.slots w'.flash (Function.update w.j.table i _ k) parts
        rw [Function.update_of_ne hk, happ.slots]
        exact hst.keeps happ.keeps
  exact ⟨⟨hsame.backed hinv.backed, hinv'.tail, hinv'.partner, hinv'.pending, hinv'.idle⟩, hsame,
    happ.active, happ.partnerClean, happ.pendingErase⟩

/-- A row that fails is the last. -/
theorem rehomeRows_failed {s : Fin 2} {r : Bool × World φ} (h : r.1 = false)
    (l : List (Fin maxBlocks)) : l.foldl (rehomeRow ops s) r = r := by
  induction l with
  | nil => rfl
  | cons i l ih =>
    have hstay : rehomeRow ops s r i = r := by
      rw [rehomeRow, if_neg (by simp [h])]
    rw [List.foldl_cons, hstay, ih]

section Sound

variable (hs : Sound ops)
include hs

theorem rehomeRow_spec {s : Fin 2} {r : Bool × World φ} (hne : s ≠ r.2.j.active)
    (hinv : Inv ops r.2) (i : Fin maxBlocks) :
    Rehomed ops r.2 (rehomeRow ops s r i).2 ∧
      ((rehomeRow ops s r i).1 = true → r.1 = true ∧ ∀ k, k = i ∨
        ((r.2.j.table k).present = true → (r.2.j.table k).sector ≠ s) →
        ((rehomeRow ops s r i).2.j.table k).present = true →
          ((rehomeRow ops s r i).2.j.table k).sector ≠ s) := by
  unfold rehomeRow
  by_cases hgo : r.1 ∧ (r.2.j.table i).present ∧ (r.2.j.table i).sector = s
  · rw [if_pos hgo]
    obtain ⟨h1, hp, -⟩ := hgo
    have hspec := emitEntry_spec hs (hinv.backed i hp) hinv.tail
    generalize emitEntry ops (r.2.j.table i) r.2 = q at hspec ⊢
    obtain ⟨new, w₁⟩ := q
    obtain ⟨happ, hsome, -⟩ := hspec
    have hre := happ.rehomed hinv
    cases new with
    | none => exact ⟨hre, fun h => by cases h⟩
    | some v =>
      obtain ⟨off, seq⟩ := v
      obtain ⟨-, hcopy⟩ := hsome off seq rfl
      dsimp only at happ hre hcopy ⊢
      refine ⟨rehomed_update hinv happ hcopy, fun _ => ⟨h1, fun k hk hpk => ?_⟩⟩
      by_cases hki : k = i
      · subst hki
        simp only [Function.update_self]
        rw [happ.active]
        exact hne.symm
      · simp only [Function.update_of_ne hki] at hpk ⊢
        rw [happ.table] at hpk ⊢
        exact (hk.resolve_left hki) hpk
  · rw [if_neg hgo]
    refine ⟨.refl hinv, fun h => ⟨h, fun k hk hpk => ?_⟩⟩
    rcases hk with rfl | hk
    · exact fun hsec => hgo ⟨h, hpk, hsec⟩
    · exact hk hpk

theorem rehomeRows_spec {s : Fin 2} (l : List (Fin maxBlocks)) {r : Bool × World φ}
    (hne : s ≠ r.2.j.active) (hinv : Inv ops r.2) :
    Rehomed ops r.2 (l.foldl (rehomeRow ops s) r).2 ∧
      ((l.foldl (rehomeRow ops s) r).1 = true → ∀ k, k ∈ l ∨
        ((r.2.j.table k).present = true → (r.2.j.table k).sector ≠ s) →
        ((l.foldl (rehomeRow ops s) r).2.j.table k).present = true →
          ((l.foldl (rehomeRow ops s) r).2.j.table k).sector ≠ s) := by
  induction l generalizing r with
  | nil => exact ⟨.refl hinv, fun _ k hk => hk.resolve_left (List.not_mem_nil)⟩
  | cons i l ih =>
    obtain ⟨h1, h2⟩ := rehomeRow_spec hs hne hinv i
    obtain ⟨h3, h4⟩ := ih (r := rehomeRow ops s r i) (by rw [h1.active]; exact hne) h1.inv
    refine ⟨h1.trans h3, fun hok k hk => ?_⟩
    have hfirst : (rehomeRow ops s r i).1 = true := by
      by_contra hno
      rw [List.foldl_cons, rehomeRows_failed (by simpa using hno) l] at hok
      exact hno hok
    obtain ⟨-, h2⟩ := h2 hfirst
    refine h4 hok k ?_
    rcases hk with hk | hk
    · rcases List.mem_cons.mp hk with rfl | hk
      · exact .inr (h2 k (.inl rfl))
      · exact .inl hk
    · exact .inr (h2 k (.inr hk))

omit hs in
/-- Nothing lies in a sector without strays. -/
theorem strays_zero {t : Fin maxBlocks → Entry} {s : Fin 2} (h : strays t s = 0)
    {i : Fin maxBlocks} (hp : (t i).present = true) : (t i).sector ≠ s := by
  have hmono : ∀ (l : List (Fin maxBlocks)) (n : ℕ), n ≤ l.foldl (fun n i =>
      if (t i).present ∧ (t i).sector = s then n + (t i).records else n) n := by
    intro l
    induction l with
    | nil => exact fun n => Nat.le_refl n
    | cons k l ih =>
      intro n
      rw [List.foldl_cons]
      refine Nat.le_trans ?_ (ih _)
      split <;> omega
  have hall : ∀ (l : List (Fin maxBlocks)) (n : ℕ), l.foldl (fun n i =>
      if (t i).present ∧ (t i).sector = s then n + (t i).records else n) n = 0 →
        ∀ i ∈ l, (t i).present = true → (t i).sector ≠ s := by
    intro l
    induction l with
    | nil => exact fun _ _ i hi => absurd hi List.not_mem_nil
    | cons k l ih =>
      intro n hz i hi hp hsec
      rw [List.foldl_cons] at hz
      rcases List.mem_cons.mp hi with rfl | hi
      · rw [if_pos ⟨hp, hsec⟩] at hz
        have hpos : 1 ≤ (t i).records := by
          unfold Entry.records
          split
          · have := chainParts_bounds (t i).len
            omega
          · exact Nat.le_refl 1
        have := hmono l (n + (t i).records)
        omega
      · exact ih _ hz i hi hp hsec
  exact hall _ _ h i (List.mem_finRange i) hp

/-- `rehome_strays`: a success leaves nothing in the sector. -/
theorem rehomeStrays_spec (hinv : Inv ops w) (s : Fin 2) :
    Rehomed ops w (rehomeStrays ops s w).2 ∧ ((rehomeStrays ops s w).1 = true →
      s ≠ w.j.active ∧ ∀ k, ((rehomeStrays ops s w).2.j.table k).present = true →
        ((rehomeStrays ops s w).2.j.table k).sector ≠ s) := by
  unfold rehomeStrays
  by_cases hs' : s = w.j.active
  · rw [if_pos hs']
    exact ⟨.refl hinv, fun h => by cases h⟩
  · rw [if_neg hs']
    by_cases hz : strays w.j.table s = 0
    · rw [if_pos hz]
      by_cases hc : w.j.tailClean
      · rw [if_pos hc]
        obtain ⟨happ, -, -⟩ := emitMarker_spec hs hinv.tail
        refine ⟨happ.rehomed hinv, fun _ => ⟨hs', fun k hp => ?_⟩⟩
        rw [happ.table] at hp ⊢
        exact strays_zero hz hp
      · rw [if_neg hc]
        exact ⟨.refl hinv, fun _ => ⟨hs', fun k hp => strays_zero hz hp⟩⟩
    · rw [if_neg hz]
      by_cases hroom : w.j.slots - w.j.cursor < strays w.j.table s + if w.j.tailClean then 1 else 0
      · rw [if_pos hroom]
        exact ⟨.refl hinv, fun h => by cases h⟩
      · rw [if_neg hroom]
        have hspec := rehomeRows_spec hs (List.finRange maxBlocks) (r := (true, w)) hs' hinv
        generalize (List.finRange maxBlocks).foldl (rehomeRow ops s) (true, w) = r at hspec ⊢
        obtain ⟨ok, w₁⟩ := r
        obtain ⟨hre, hmoved⟩ := hspec
        dsimp only at hre hmoved ⊢
        cases ok with
        | false => exact ⟨hre, fun h => by cases h⟩
        | true =>
          rw [if_neg (by decide)]
          have hmoved := hmoved rfl
          by_cases hc : w.j.tailClean
          · rw [if_pos hc]
            obtain ⟨happ, -, -⟩ := emitMarker_spec hs hre.inv.tail
            refine ⟨(hre.trans (happ.rehomed hre.inv)).tailed _, fun _ => ⟨hs', fun k hp => ?_⟩⟩
            dsimp only at hp ⊢
            rw [happ.table] at hp ⊢
            exact hmoved k (.inl (List.mem_finRange k)) hp
          · rw [if_neg hc]
            exact ⟨hre, fun _ => ⟨hs', fun k hp => hmoved k (.inl (List.mem_finRange k)) hp⟩⟩

/-- The erase of a sector that holds no value. -/
theorem erase_spec (hinv : Inv ops w) (hc : w.j.partnerClean = false)
    (hrows : ∀ k, (w.j.table k).present = true → (w.j.table k).sector ≠ other w.j.active) :
    Inv ops { w with flash := (ops.erase w.flash (other w.j.active)).2 } ∧
      SameValues ops w { w with flash := (ops.erase w.flash (other w.j.active)).2 } := by
  have hsame : SameValues ops w { w with flash := (ops.erase w.flash (other w.j.active)).2 } := by
    refine ⟨rfl, rfl, rfl, fun _ => ⟨rfl, rfl, rfl, rfl, rfl⟩, fun i hp hch parts hst => ?_,
      fun ht hb s k hk hnb v hv => ?_⟩
    · have hother := fun k => hs.erase_other w.flash (other w.j.active) _ k (hrows i hp)
      refine ⟨hst.chain.congr fun k _ => ?_, hst.range, fun k hk => ?_⟩
      · rw [FlashOps.slot, (hother _).1]
        rfl
      · rw [(hother _).2]
        exact hst.blank k hk
    · by_cases hsec : s = other w.j.active
      · subst hsec
        obtain ⟨h1, h2⟩ := ht.erase _ _ _ hnb v hv
        exact hb _ k hk h1 v h2
      · obtain ⟨hread, hbl⟩ := hs.erase_other w.flash _ s k hsec
        rw [hbl] at hnb
        rw [FlashOps.slot, hread] at hv
        exact hb s k hk hnb v hv
  refine ⟨⟨hsame.backed hinv.backed, fun k hk hlt => ?_, fun h => ?_, fun h => ?_, hinv.idle⟩, hsame⟩
  · rw [(hs.erase_other w.flash _ w.j.active k (other_ne _).symm).2]
    exact hinv.tail k hk hlt
  · rw [hc] at h
    cases h
  · rw [hc] at h
    cases h

/-- A compaction keeps every value. -/
theorem compact_spec (hinv : Inv ops w) :
    Inv ops (compact ops w).2 ∧ SameValues ops w (compact ops w).2 := by
  unfold compact
  split
  · exact ⟨hinv, .refl w⟩
  · split
    · exact ⟨hinv, .refl w⟩
    · split
      · exact ⟨hinv, .refl w⟩
      · by_cases hc : w.j.partnerClean = true
        · rw [if_pos hc]
          obtain ⟨h1, h2, -⟩ := compactInto_spec hs hinv (hinv.partner hc)
          exact ⟨h1, h2⟩
        · rw [if_neg hc]
          have hspec := rehomeStrays_spec hs hinv (other w.j.active)
          generalize rehomeStrays ops (other w.j.active) w = r at hspec ⊢
          obtain ⟨ok, w₁⟩ := r
          obtain ⟨hre, hmoved⟩ := hspec
          dsimp only at hre hmoved ⊢
          cases ok with
          | false => exact ⟨hre.inv, hre.same⟩
          | true =>
            rw [if_neg (by decide)]
            obtain ⟨-, hrows⟩ := hmoved rfl
            have herase := erase_spec hs hre.inv (by rw [hre.partnerClean]; simpa using hc)
              (by rw [hre.active]; exact hrows)
            rw [hre.active] at herase
            obtain ⟨hinv₂, hsame₂⟩ := herase
            by_cases hok : (ops.erase w₁.flash (other w.j.active)).1 = true
            · rw [if_pos hok]
              obtain ⟨h1, h2, -⟩ := compactInto_spec hs hinv₂ fun k _ => by
                have := hs.erase_ok w₁.flash (other w.j.active) k hok
                rw [← hre.active] at this
                rw [← hre.active]
                exact this
              exact ⟨h1, (hre.same.trans hsame₂).trans h2⟩
            · rw [if_neg hok]
              exact ⟨hinv₂, hre.same.trans hsame₂⟩

theorem markClean_spec (hinv : Inv ops w) :
    Inv ops (markClean ops w).2 ∧ SameValues ops w (markClean ops w).2 := by
  unfold markClean
  split
  · exact ⟨hinv, .refl w⟩
  · have hspace := ensureSpace_spec hs hinv 1
    generalize ensureSpace ops 1 w = r at hspace ⊢
    obtain ⟨ok, w₀⟩ := r
    obtain ⟨hinv₀, hsame, hroom, -⟩ := hspace
    dsimp only at hinv₀ hsame hroom ⊢
    cases ok with
    | false => exact ⟨hinv₀, hsame⟩
    | true =>
      rw [if_neg (by decide)]
      obtain ⟨hroom, hlim⟩ := hroom rfl
      have hinv₁ := hinv₀.nextSeq
      have hsame := hsame.nextSeq hlim
      obtain ⟨happ, -⟩ := programSlot_spec hs (w := w₀.nextSeq)
        (p := encodeRecord markerBlock 0 w₀.nextSeq.j.maxSeq fun _ => 0)
        (fun v hv => encodeRecord_seq hv) (hinv₁.tail w₀.j.cursor (Nat.le_refl _) hroom)
      have hre := happ.rehomed hinv₁
      by_cases hok : (programSlot ops w₀.nextSeq
          (encodeRecord markerBlock 0 w₀.nextSeq.j.maxSeq fun _ => 0)).1 = true
      · rw [if_pos hok]
        have hre' := hre.tailed true
        exact ⟨hre'.inv, hsame.trans hre'.same⟩
      · rw [if_neg hok]
        exact ⟨hre.inv, hsame.trans hre.same⟩

omit hs in
theorem fin2_other {s t : Fin 2} (h : s ≠ t) : s = other t := by
  revert s t
  decide

theorem erasePending_spec (hinv : Inv ops w) :
    Inv ops (erasePending ops w).2 ∧ SameValues ops w (erasePending ops w).2 := by
  unfold erasePending
  split
  · exact ⟨hinv, .refl w⟩
  · cases hpend : w.j.pendingErase with
    | none => exact ⟨hinv, .refl w⟩
    | some s =>
      dsimp only
      split
      · exact ⟨hinv, .refl w⟩
      · split
        · exact ⟨hinv, .refl w⟩
        · have hspec := rehomeStrays_spec hs hinv s
          generalize rehomeStrays ops s w = r at hspec ⊢
          obtain ⟨ok, w₁⟩ := r
          obtain ⟨hre, hmoved⟩ := hspec
          dsimp only at hre hmoved ⊢
          cases ok with
          | false => exact ⟨hre.inv, hre.same⟩
          | true =>
            rw [if_neg (by decide)]
            obtain ⟨hne, hrows⟩ := hmoved rfl
            have hdirty : w.j.partnerClean = false := by
              by_contra hcon
              have := hinv.pending (by simpa using hcon)
              rw [hpend] at this
              cases this
            obtain rfl := fin2_other hne
            have herase := erase_spec hs hre.inv (by rw [hre.partnerClean, hdirty])
              (by rw [hre.active]; exact hrows)
            rw [hre.active] at herase
            obtain ⟨hinv₂, hsame₂⟩ := herase
            by_cases hok : (ops.erase w₁.flash (other w.j.active)).1 = true
            · rw [if_pos hok]
              have hsame := hre.same.trans hsame₂
              refine ⟨⟨hinv₂.backed, hinv₂.tail, fun _ k _ => ?_, fun _ => rfl, hinv₂.idle⟩,
                ⟨hsame.slots, hsame.mounted, hsame.overflow, hsame.row, hsame.stored, hsame.bounded⟩⟩
              have := hs.erase_ok w₁.flash (other w.j.active) k hok
              rw [← hre.active] at this
              rw [← hre.active]
              exact this
            · rw [if_neg hok]
              exact ⟨hinv₂, hre.same.trans hsame₂⟩

end Sound

theorem prune_spec (hinv : Inv ops w) (keep : List UInt16) :
    Inv ops (prune keep w) ∧ (prune keep w).j.slots = w.j.slots ∧
      ∀ i, ((prune keep w).j.table i).present = true →
        (prune keep w).j.table i = w.j.table i := by
  unfold prune
  split
  · exact ⟨hinv, rfl, fun _ _ => rfl⟩
  · have hrow : ∀ i, (if (w.j.table i).present ∧ (w.j.table i).id ∉ keep then {}
        else w.j.table i : Entry).present = true →
        (if (w.j.table i).present ∧ (w.j.table i).id ∉ keep then {} else w.j.table i : Entry) =
          w.j.table i := by
      intro i h
      split
      · rw [if_pos ‹_›] at h
        cases h
      · rfl
    refine ⟨⟨fun i hp => ?_, hinv.tail, hinv.partner, hinv.pending, hinv.idle⟩, rfl, hrow⟩
    have heq := hrow i hp
    dsimp only at hp ⊢
    rw [heq] at hp ⊢
    exact hinv.backed i hp

end BloblyEmb.Nvm
