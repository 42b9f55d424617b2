import BloblyEmb.Nvm.Flash

/-!
# Appending values and copying them

A run of records goes into consecutive erased slots. What `append` writes for a value is a chain of
its bytes, and `emit_entry` writes the chain of an entry again; neither fails for want of room when
the slots are there.
-/
namespace BloblyEmb.Nvm

variable {φ : Type} {ops : FlashOps φ} (hs : Sound ops) {w : World φ}
include hs

/-- The records of a list of parts, each parsing. -/
theorem programParts_spec (id : UInt16) (seq : UInt32) (l : List (UInt16 × Ptr))
    (hlast : seq = w.j.maxSeq)
    (hparse : ∀ x ∈ l, parseRecord (encodeRecord id x.1 seq x.2) ≠ none) (ht : TailBlank ops w)
    (hroom : w.j.cursor + l.length ≤ w.j.slots) :
    Appended ops w (programParts ops id seq l w).2 ∧
      (programParts ops id seq l w).2.j.cursor ≤ w.j.cursor + l.length ∧
      (programParts ops id seq l w).2.j.maxSeq = w.j.maxSeq ∧
      ((programParts ops id seq l w).1 = true →
        (programParts ops id seq l w).2.j.cursor = w.j.cursor + l.length ∧
        ∀ k, (hk : k < l.length) →
          SameRecord (ops.slot (programParts ops id seq l w).2.flash w.j.active (w.j.cursor + k))
            (encodeRecord id l[k].1 seq l[k].2) ∧
          ops.slotBlank (programParts ops id seq l w).2.flash w.j.active (w.j.cursor + k) =
            false) ∧
      (Ready ops → (programParts ops id seq l w).1 = true) := by
  induction l generalizing w with
  | nil =>
    exact ⟨.refl w, Nat.le_refl _, rfl, fun _ => ⟨rfl, fun k hk => absurd hk (Nat.not_lt_zero k)⟩,
      fun _ => rfl⟩
  | cons x l ih =>
    obtain ⟨lenf, d⟩ := x
    rw [List.length_cons] at hroom
    have hspec := programSlot_spec hs (p := encodeRecord id lenf seq d)
      (fun v hv => (encodeRecord_seq hv).trans hlast) (ht w.j.cursor (Nat.le_refl _) (by omega))
    have hparse0 := hparse _ List.mem_cons_self
    have hcons : programParts ops id seq ((lenf, d) :: l) w =
        if (programSlot ops w (encodeRecord id lenf seq d)).1 = true then
          programParts ops id seq l (programSlot ops w (encodeRecord id lenf seq d)).2
        else (false, (programSlot ops w (encodeRecord id lenf seq d)).2) := rfl
    rw [hcons]
    generalize programSlot ops w (encodeRecord id lenf seq d) = r at hspec ⊢
    obtain ⟨ok, w'⟩ := r
    obtain ⟨happ, hj, hok, hready⟩ := hspec
    dsimp only at happ hj hok hready ⊢
    have hcur := congrArg Journal.cursor hj
    have hslots := congrArg Journal.slots hj
    have hseq := congrArg Journal.maxSeq hj
    have hactive := congrArg Journal.active hj
    dsimp only at hcur hslots hseq hactive
    cases ok with
    | false =>
      rw [if_neg (by decide)]
      dsimp only
      refine ⟨happ, ?_, hseq, fun h => ?_, fun hr => ?_⟩
      · rw [List.length_cons]
        omega
      · cases h
      · cases hready hr
    | true =>
      have hih := ih (w := w') (hlast.trans hseq.symm)
        (fun x hx => hparse x (List.mem_cons_of_mem _ hx)) (happ.tail ht) (by omega)
      generalize programParts ops id seq l w' = r' at hih ⊢
      obtain ⟨happ', hle', hseq', hok', hready'⟩ := hih
      obtain ⟨hsame, hblank⟩ := hok rfl
      have hblank := hblank hparse0
      rw [if_pos rfl]
      refine ⟨happ.trans happ', ?_, hseq'.trans hseq, fun h => ?_, hready'⟩
      · rw [List.length_cons]
        omega
      · obtain ⟨hend, hall⟩ := hok' h
        refine ⟨by rw [List.length_cons, hend]; omega, fun k hk => ?_⟩
        cases k with
        | zero =>
          refine ⟨?_, happ'.keeps.blank _ _ hblank⟩
          rw [Nat.add_zero, FlashOps.slot, happ'.keeps.read _ _ hblank]
          exact hsame
        | succ k =>
          rw [List.length_cons] at hk
          have hk' := hall k (by omega)
          rw [hactive, hcur, show w.j.cursor + 1 + k = w.j.cursor + (k + 1) by omega] at hk'
          exact hk'

omit hs in
/-- A chain that has just been appended is the latest of its block, if every record before it is
older. -/
theorem Appended.latest {w' : World φ} (h : Appended ops w w') {e : Entry}
    {parts : List (List UInt8)} (hst : Stored ops w'.j.slots w'.flash e parts)
    (hsec : e.sector = w.j.active) (href : e.refOff = w.j.cursor)
    (hend : w'.j.cursor = e.refOff + parts.length)
    (hold : ∀ s k, k < w.j.slots → ops.slotBlank w.flash s k = false → ∀ v,
      parseRecord (ops.slot w.flash s k) = some v → v.2.2 < e.seq) :
    Latest ops w'.j.slots w'.flash e parts := by
  refine ⟨hst, fun s k hk hnb lenf q hparse => ?_⟩
  by_cases hin : s = w.j.active ∧ w.j.cursor ≤ k ∧ k < w'.j.cursor
  · left
    rw [hsec, href, ← href, ← hend, href]
    exact hin
  · right
    -- outside of the slots that the cursor has passed nothing has changed
    have hblank := h.blank s k (by
      by_cases hs : s = w.j.active
      · right
        by_contra hcon
        push Not at hcon
        exact hin ⟨hs, by omega, by omega⟩
      · exact .inl hs)
    rw [hblank] at hnb
    rw [FlashOps.slot, h.keeps.read s k hnb] at hparse
    rw [h.slots] at hk
    exact hold s k hk hnb _ hparse

/-- The copies of the parts of a stored chain, from part `k` on. -/
theorem copyParts_spec {e : Entry} {parts : List (List UInt8)} {seq : UInt32} (n : ℕ) {k : ℕ}
    (hlast : seq = w.j.maxSeq) (hk : k + n ≤ parts.length)
    (hst : Stored ops w.j.slots w.flash e parts) (ht : TailBlank ops w) (hroom : w.j.cursor + n ≤ w.j.slots) :
    Appended ops w (copyParts ops e seq (List.range' k n) w).2 ∧
      (copyParts ops e seq (List.range' k n) w).2.j.cursor ≤ w.j.cursor + n ∧
      (copyParts ops e seq (List.range' k n) w).2.j.maxSeq = w.j.maxSeq ∧
      ((copyParts ops e seq (List.range' k n) w).1 = true →
        (copyParts ops e seq (List.range' k n) w).2.j.cursor = w.j.cursor + n ∧
        ∀ i < n, ∃ lenf,
          parseRecord (ops.slot w.flash e.sector (e.refOff + (k + i))) = some (e.id, lenf, e.seq) ∧
          SameRecord (ops.slot (copyParts ops e seq (List.range' k n) w).2.flash w.j.active
            (w.j.cursor + i)) (encodeRecord e.id lenf seq
              ((ops.slot w.flash e.sector (e.refOff + (k + i))).add 8)) ∧
          ops.slotBlank (copyParts ops e seq (List.range' k n) w).2.flash w.j.active
            (w.j.cursor + i) = false) ∧
      (Ready ops → (copyParts ops e seq (List.range' k n) w).1 = true) := by
  induction n generalizing w k with
  | zero =>
    exact ⟨.refl w, Nat.le_refl _, rfl, fun _ => ⟨rfl, fun i hi => absurd hi (Nat.not_lt_zero i)⟩,
      fun _ => rfl⟩
  | succ n ih =>
    obtain ⟨⟨lenf, hparse, hpart, hidx, hplen⟩, -⟩ := hst.chain.part k (by omega)
    have hsize := (hst.chain.size k (by omega)).2
    have hread : ops.read w.flash e.sector (e.refOff + k) =
        some (ops.slot w.flash e.sector (e.refOff + k)) := read_of_parse (by rw [hparse]; simp)
    have henc : parseRecord (encodeRecord e.id lenf seq ((ops.slot w.flash e.sector
        (e.refOff + k)).add 8)) ≠ none := by
      rw [parseRecord_encode (by rw [hplen]; exact hsize) fun h => by rw [hpart] at h; cases h]
      simp
    have hblankc := ht w.j.cursor (Nat.le_refl _) (by omega)
    have hspec := programSlot_spec hs (p := encodeRecord e.id lenf seq
      ((ops.slot w.flash e.sector (e.refOff + k)).add 8))
      (fun v hv => (encodeRecord_seq hv).trans hlast) hblankc
    rw [List.range'_succ, copyParts, hread]
    dsimp only
    rw [hparse]
    dsimp only
    rw [if_neg (by simp [hpart, hidx])]
    generalize programSlot ops w (encodeRecord e.id lenf seq
      ((ops.slot w.flash e.sector (e.refOff + k)).add 8)) = r at hspec ⊢
    obtain ⟨ok, w'⟩ := r
    obtain ⟨happ, hj, hok, hready⟩ := hspec
    dsimp only at happ hj hok hready ⊢
    have hcur := congrArg Journal.cursor hj
    have hslots := congrArg Journal.slots hj
    have hseq := congrArg Journal.maxSeq hj
    have hactive := congrArg Journal.active hj
    dsimp only at hcur hslots hseq hactive
    cases ok with
    | false =>
      rw [if_neg (by decide)]
      dsimp only
      refine ⟨happ, by omega, hseq, fun h => ?_, fun hr => ?_⟩
      · cases h
      · cases hready hr
    | true =>
      have hst' := hst.keeps happ.keeps
      rw [← hslots] at hst'
      have hih := ih (w := w') (k := k + 1) (hlast.trans hseq.symm) (by omega) hst' (happ.tail ht) (by omega)
      generalize copyParts ops e seq (List.range' (k + 1) n) w' = r' at hih ⊢
      obtain ⟨happ', hle', hseq', hok', hready'⟩ := hih
      obtain ⟨hsame, hblank⟩ := hok rfl
      have hblank := hblank henc
      rw [if_pos rfl]
      refine ⟨happ.trans happ', by omega, hseq'.trans hseq, fun h => ?_, hready'⟩
      obtain ⟨hend, hall⟩ := hok' h
      refine ⟨by rw [hend]; omega, fun i hi => ?_⟩
      cases i with
      | zero =>
        refine ⟨lenf, hparse, ?_, happ'.keeps.blank _ _ hblank⟩
        rw [Nat.add_zero, Nat.add_zero, FlashOps.slot, happ'.keeps.read _ _ hblank]
        exact hsame
      | succ i =>
        obtain ⟨lenf', hparse', hsame', hblank'⟩ := hall i (by omega)
        have hold : ops.slot w'.flash e.sector (e.refOff + (k + 1 + i)) =
            ops.slot w.flash e.sector (e.refOff + (k + (i + 1))) := by
          rw [show k + 1 + i = k + (i + 1) by omega, FlashOps.slot,
            happ.keeps.read _ _ (hst.blank _ (by omega))]
          rfl
        rw [hold] at hparse' hsame'
        rw [hactive, hcur, show w.j.cursor + 1 + i = w.j.cursor + (i + 1) by omega] at hsame' hblank'
        exact ⟨lenf', hparse', hsame', hblank'⟩

/-- `emit_entry`: an entry that is backed is backed at its new place. -/
theorem emitEntry_spec {e : Entry} (hb : Backed ops w.j.slots w.flash e) (ht : TailBlank ops w) :
    Appended ops w (emitEntry ops e w).2 ∧
      (∀ start seq, (emitEntry ops e w).1 = some (start, seq) →
        (emitEntry ops e w).2.j.cursor = w.j.cursor + e.records ∧
        (e.chained = true → ∀ parts, Stored ops w.j.slots w.flash e parts →
          Stored ops w.j.slots (emitEntry ops e w).2.flash
            { e with sector := w.j.active, seq := seq, refOff := start } parts)) ∧
      (Ready ops → w.j.maxSeq < seqCeiling → w.j.cursor + e.records ≤ w.j.slots →
        ((emitEntry ops e w).1.isSome ∧ (emitEntry ops e w).2.j.maxSeq = w.j.maxSeq + 1)) := by
  have hrec : (if e.chained then chainParts e.len else 1) = e.records := rfl
  unfold emitEntry
  rw [hrec]
  by_cases hroom : roomFor w.j e.records
  · have hr : w.j.maxSeq < seqCeiling ∧ w.j.cursor + e.records ≤ w.j.slots := by
      simpa [roomFor] using hroom
    rw [if_neg (by simp [hroom])]
    have happ0 : Appended ops w w.nextSeq := appended_nextSeq hr.1
    have ht' : TailBlank ops w.nextSeq := happ0.tail ht
    by_cases hc : e.chained
    · have hb' := hb
      rw [Backed, if_pos hc] at hb'
      obtain ⟨parts, hst⟩ := hb'
      have hcount : e.records = parts.length := by
        rw [Entry.records, if_pos hc, hst.chain.count]
      have hst' : Stored ops w.nextSeq.j.slots w.nextSeq.flash e parts := hst
      obtain ⟨happ, hle, hseq, hok, hready⟩ := copyParts_spec hs (w := w.nextSeq)
        parts.length (k := 0) rfl (by omega) hst' ht' (by rw [← hcount]; exact hr.2)
      simp only [hc, if_true]
      rw [← hst.chain.count, List.range_eq_range']
      refine ⟨happ0.trans happ, ?_, ?_⟩
      · intro start seq hsome
        by_cases hdone : (copyParts ops e w.nextSeq.j.maxSeq (List.range' 0 parts.length)
            w.nextSeq).1
        · rw [if_pos hdone, Option.some.injEq, Prod.mk.injEq] at hsome
          obtain ⟨rfl, rfl⟩ := hsome
          obtain ⟨hend, hall⟩ := hok hdone
          refine ⟨by rw [hcount]; exact hend, fun _ parts' hst₂ => ?_⟩
          have hlen' : parts'.length = parts.length := by rw [hst₂.chain.count, hst.chain.count]
          refine ⟨hst₂.chain.copy fun k hk => ?_, ?_, fun k hk => ?_⟩
          · obtain ⟨lenf, hparse, hsame, -⟩ := hall k (by omega)
            rw [Nat.zero_add] at hparse hsame
            exact ⟨lenf, hparse, hsame⟩
          · rw [hlen', ← hcount]
            exact hr.2
          · obtain ⟨-, -, -, hblank⟩ := hall k (by omega)
            exact hblank
        · rw [if_neg hdone] at hsome
          cases hsome
      · intro hrdy _ _
        rw [if_pos (hready hrdy)]
        exact ⟨rfl, hseq⟩
    · have hone : e.records = 1 := if_neg hc
      have hc' : e.chained = false := by simpa using hc
      obtain ⟨happ, hj, hok, hready⟩ := programSlot_spec hs (p := encodeRecord e.id
        (UInt16.ofNat e.len) w.nextSeq.j.maxSeq (Ptr.of e.data)) (fun v hv => encodeRecord_seq hv) (ht' w.j.cursor (Nat.le_refl _) (by
          have := hr.2
          change w.j.cursor < w.j.slots
          omega))
      simp only [hc', Bool.false_eq_true, if_false]
      refine ⟨happ0.trans happ, ?_, ?_⟩
      · intro start seq hsome
        refine ⟨?_, fun h => by cases h⟩
        rw [hj, hone]
        rfl
      · intro hrdy _ _
        rw [if_pos (hready hrdy), hj]
        exact ⟨rfl, rfl⟩
  · rw [if_pos hroom]
    refine ⟨.refl w, fun start seq h => (by cases h), fun _ h1 h2 => ?_⟩
    exact absurd (by simp [roomFor, h1, h2]) hroom

end BloblyEmb.Nvm
