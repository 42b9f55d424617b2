import BloblyEmb.Nvm.Numbering

/-!
# Where the values lie

Every row of the table names an intact record, or an intact chain of records, of its block under its
sequence number. Of the two sectors, the one behind is known to be erased exactly when no erase is
pending, and the active sector never awaits one.
-/
namespace BloblyEmb.Nvm

variable {φ : Type} {ops : FlashOps φ} {w w' : World φ}

/-- A plain value lies in a record of its block, length and number. -/
def PlainAt (ops : FlashOps φ) (slots : ℕ) (f : φ) (e : Entry) : Prop :=
  ∃ k < slots, ops.slotBlank f e.sector k = false ∧
    parseRecord (ops.slot f e.sector k) = some (e.id, UInt16.ofNat e.len, e.seq) ∧
      (ops.slot f e.sector k).slice 8 e.len = e.data

/-- Every plain row lies in flash. -/
def Placed (ops : FlashOps φ) (w : World φ) : Prop :=
  ∀ i, (w.j.table i).present = true → (w.j.table i).chained = false →
    PlainAt ops w.j.slots w.flash (w.j.table i)

theorem PlainAt.keeps {slots : ℕ} {f f' : φ} {e : Entry} (h : PlainAt ops slots f e)
    (hk : Keeps ops f f') : PlainAt ops slots f' e := by
  obtain ⟨k, hlt, hb, hparse, hdata⟩ := h
  have hslot : ops.slot f' e.sector k = ops.slot f e.sector k := by
    rw [FlashOps.slot, hk.read _ _ hb]
    rfl
  exact ⟨k, hlt, hk.blank _ _ hb, by rwa [hslot], by rwa [hslot]⟩

theorem Placed.appended (h : Placed ops w) (happ : Appended ops w w') : Placed ops w' := by
  intro i hp hc
  rw [happ.table] at hp hc ⊢
  rw [happ.slots]
  exact (h i hp hc).keeps happ.keeps

/-- Where the table and the flash are the same. -/
theorem Placed.congr (h : Placed ops w) (hslots : w'.j.slots = w.j.slots)
    (htable : w'.j.table = w.j.table) (hflash : w'.flash = w.flash) : Placed ops w' := by
  intro i hp hc
  rw [htable] at hp hc ⊢
  rw [hslots, hflash]
  exact h i hp hc

section Sound

variable (hs : Sound ops)
include hs

/-- The record that a plain value is written to. -/
theorem plainAt_program {id : UInt16} {data : List UInt8} {seq : UInt32} (hlen : data.length ≤ dataMax)
    (hseq : seq = w.j.maxSeq) (ht : TailBlank ops w) (hroom : w.j.cursor < w.j.slots)
    (hok : (programSlot ops w (encodeRecord id (UInt16.ofNat data.length) seq (Ptr.of data))).1 = true)
    {e : Entry} (hsector : e.sector = w.j.active) (hid : e.id = id) (helen : e.len = data.length)
    (heseq : e.seq = seq) (hdata : e.data = data) :
    PlainAt ops w.j.slots
      (programSlot ops w (encodeRecord id (UInt16.ofNat data.length) seq (Ptr.of data))).2.flash e := by
  have hplen : ∀ n : Fin 21, plen (UInt16.ofNat n) = n ∧ isPart (UInt16.ofNat n) = false ∧
      (UInt16.ofNat n).toNat = n := by
    decide +kernel
  simp only [dataMax] at hlen
  obtain ⟨h1, h2, h3⟩ := hplen ⟨data.length, by omega⟩
  dsimp only at h1 h2 h3
  have hparse : parseRecord (encodeRecord id (UInt16.ofNat data.length) seq (Ptr.of data)) =
      some (id, UInt16.ofNat data.length, seq) :=
    parseRecord_encode (by rw [h1]; exact hlen) fun _ => by rw [h3]; exact hlen
  obtain ⟨-, -, hrec, -⟩ := programSlot_spec hs
    (p := encodeRecord id (UInt16.ofNat data.length) seq (Ptr.of data))
    (fun v hv => (encodeRecord_seq hv).trans hseq) (ht w.j.cursor (Nat.le_refl _) hroom)
  obtain ⟨hsame, hblank⟩ := hrec hok
  refine ⟨w.j.cursor, hroom, ?_, ?_, ?_⟩
  · rw [hsector]
    exact hblank (by rw [hparse]; simp)
  · rw [hsector, hid, helen, heseq]
    exact (parseRecord_congr hsame).trans hparse
  · rw [hsector, helen, hdata]
    refine List.ext_getElem (Ptr.length_slice _ _ _) fun i hi hi' => ?_
    have hbyte := (hsame (8 + i) (by omega)).trans (encodeRecord_data (by rw [h1]; exact hlen)
      (by rw [h1]; exact hi'))
    simp only [Ptr.slice, List.getElem_map, List.getElem_range]
    rw [hbyte]
    simp [Ptr.of, hi']

/-- `emit_entry`: a plain entry lies at its new place. -/
theorem emitEntry_plain {e : Entry} (hb : Backed ops w.j.slots w.flash e) (ht : TailBlank ops w)
    (hc : e.chained = false) (hat : PlainAt ops w.j.slots w.flash e) {start : ℕ} {seq : UInt32}
    (hsome : (emitEntry ops e w).1 = some (start, seq)) {e' : Entry}
    (hsector : e'.sector = w.j.active) (hid : e'.id = e.id) (hlen : e'.len = e.len)
    (hseq : e'.seq = seq) (hdata : e'.data = e.data) :
    PlainAt ops w.j.slots (emitEntry ops e w).2.flash e' := by
  obtain ⟨k, -, -, -, hold⟩ := hat
  have hdlen : e.data.length = e.len := by
    rw [← hold]
    exact Ptr.length_slice _ _ _
  have hle : e.data.length ≤ dataMax := by
    rw [Backed, hc, if_neg (by decide)] at hb
    rw [hdlen]
    exact hb.1
  unfold emitEntry at hsome ⊢
  simp only [hc, Bool.false_eq_true, if_false] at hsome ⊢
  by_cases hroom : roomFor w.j 1 = true
  · rw [if_neg (by simp [hroom])] at hsome ⊢
    have hr : w.j.maxSeq < seqCeiling ∧ w.j.cursor + 1 ≤ w.j.slots := by
      simpa [roomFor] using hroom
    rw [← hdlen] at hsome ⊢
    by_cases hok : (programSlot ops w.nextSeq (encodeRecord e.id (UInt16.ofNat e.data.length)
        w.nextSeq.j.maxSeq (Ptr.of e.data))).1 = true
    · rw [if_pos hok, Option.some.injEq, Prod.mk.injEq] at hsome
      exact plainAt_program hs hle rfl ((appended_nextSeq hr.1).tail ht) hr.2 hok hsector hid
        (hlen.trans hdlen.symm) (hseq.trans hsome.2.symm) hdata
    · rw [if_neg hok] at hsome
      cases hsome
  · rw [if_pos hroom] at hsome
    cases hsome

/-- The copies of plain rows. -/
theorem copyAll_plain (l : List (Fin maxBlocks)) (hl : l.Nodup) (news : Fin maxBlocks → ℕ × UInt32)
    (hb : ∀ i, (w.j.table i).present → Backed ops w.j.slots w.flash (w.j.table i))
    (ht : TailBlank ops w) (hplaced : Placed ops w) {news' : Fin maxBlocks → ℕ × UInt32}
    (hsome : (copyAll ops l news w).1 = some news') (i : Fin maxBlocks) (hi : i ∈ l)
    (hp : (w.j.table i).present = true) (hc : (w.j.table i).chained = false) :
    PlainAt ops w.j.slots (copyAll ops l news w).2.flash
      { w.j.table i with sector := w.j.active, seq := (news' i).2 } := by
  induction l generalizing w news with
  | nil => cases hi
  | cons k l ih =>
    obtain ⟨hk, hl⟩ := List.nodup_cons.mp hl
    rw [copyAll] at hsome ⊢
    by_cases hpk : (w.j.table k).present = true
    · rw [if_pos hpk] at hsome ⊢
      obtain ⟨happ, -, -⟩ := emitEntry_spec hs (hb k hpk) ht
      have hplain : (w.j.table k).chained = false → ∀ start seq,
          (emitEntry ops (w.j.table k) w).1 = some (start, seq) →
            PlainAt ops w.j.slots (emitEntry ops (w.j.table k) w).2.flash
              { w.j.table k with sector := w.j.active, seq := seq } := fun hck start seq hsome =>
        emitEntry_plain hs (hb k hpk) ht hck (hplaced k hpk hck) hsome rfl rfl rfl rfl rfl
      generalize emitEntry ops (w.j.table k) w = q at happ hplain hsome ⊢
      obtain ⟨new, w₁⟩ := q
      cases new with
      | none => cases hsome
      | some v =>
        obtain ⟨start, seq⟩ := v
        dsimp only at happ hplain hsome ⊢
        have hb₁ : ∀ i, (w₁.j.table i).present → Backed ops w₁.j.slots w₁.flash (w₁.j.table i) := by
          intro i hi
          rw [happ.table] at hi ⊢
          rw [happ.slots]
          exact (hb i hi).keeps happ.keeps
        obtain ⟨happ', hnews, -⟩ := copyAll_spec hs l hl (Function.update news k (start, seq)) hb₁
          (happ.tail ht)
        obtain ⟨-, hout, -⟩ := hnews news' hsome
        rcases List.mem_cons.mp hi with rfl | hil
        · have hrow : news' i = (start, seq) := by
            rw [hout i hk, Function.update_self]
          rw [hrow]
          exact (hplain hc start seq rfl).keeps happ'.keeps
        · have hih := ih hl (Function.update news k (start, seq)) hb₁ (happ.tail ht)
            (hplaced.appended happ) hsome hil (by rw [happ.table]; exact hp)
            (by rw [happ.table]; exact hc)
          rw [happ.table, happ.slots, happ.active] at hih
          exact hih
    · rw [if_neg hpk] at hsome ⊢
      rcases List.mem_cons.mp hi with rfl | hil
      · exact absurd hp hpk
      · exact ih hl news hb ht hplaced hsome hil hp hc

/-- A compaction into an erased partner leaves every plain row in flash. -/
theorem compactInto_placed (hinv : Inv ops w) (hplaced : Placed ops w)
    (hpart : ∀ k < w.j.slots, ops.slotBlank w.flash (other w.j.active) k = true) :
    Placed ops (compactInto ops w).2 := by
  have ht : TailBlank ops w.copying := fun k _ hlt => hpart k hlt
  have hplaced₀ : Placed ops w.copying := hplaced
  obtain ⟨happ, -, -⟩ := copyAll_spec hs (List.finRange maxBlocks) (List.nodup_finRange _)
    (fun _ => (0, 0)) (w := w.copying) hinv.backed ht
  have hcopy := fun news' (h : (copyAll ops (List.finRange maxBlocks) (fun _ => (0, 0))
      w.copying).1 = some news') =>
    copyAll_plain hs (w := w.copying) (List.finRange maxBlocks) (List.nodup_finRange _) _ hinv.backed ht
      hplaced₀ h
  have hback : ∀ w₁ : World φ, Appended ops w.copying w₁ → Placed ops (w.reverted w₁) :=
    fun w₁ h => (hplaced₀.appended h).congr rfl rfl rfl
  have hdone : ∀ (news : Fin maxBlocks → ℕ × UInt32) (w₁ w₂ : World φ),
      Appended ops w.copying w₁ → Appended ops w₁ w₂ →
      (∀ i, (w.j.table i).present = true → (w.j.table i).chained = false →
        PlainAt ops w.j.slots w₁.flash
          { w.j.table i with sector := other w.j.active, seq := (news i).2 }) →
      Placed ops (w.switched w₂ news) := by
    intro news w₁ w₂ h₁ h₂ hrow i hp hc
    have htab : (w.switched w₂ news).j.table i = moved (other w.j.active) news w.j.table i := by
      change moved (other w.j.active) news w₂.j.table i = _
      rw [h₂.table, h₁.table]
      rfl
    have hslots : (w.switched w₂ news).j.slots = w.j.slots := h₂.slots.trans h₁.slots
    rw [htab] at hp hc ⊢
    have hp' : (w.j.table i).present = true := by
      by_contra hno
      rw [moved, if_neg hno] at hp
      exact hno hp
    rw [moved, if_pos hp'] at hc ⊢
    rw [hslots]
    obtain ⟨k, hk⟩ := (hrow i hp' hc).keeps h₂.keeps
    exact ⟨k, hk⟩
  unfold compactInto
  generalize copyAll ops (List.finRange maxBlocks) (fun _ => (0, 0)) w.copying = r at happ hcopy ⊢
  obtain ⟨news, w₁⟩ := r
  cases news with
  | none => exact hback w₁ happ
  | some news =>
    have hrow := fun i hp hc => hcopy news rfl i (List.mem_finRange i) hp hc
    dsimp only at happ ⊢
    split
    · obtain ⟨hmark, -, -⟩ := emitMarker_spec hs (happ.tail ht)
      generalize emitMarker ops w₁ = m at hmark ⊢
      obtain ⟨ok, w₂⟩ := m
      cases ok with
      | true => exact hdone news w₁ w₂ happ hmark hrow
      | false => exact hback w₂ (happ.trans hmark)
    · exact hdone news w₁ w₁ happ (.refl w₁) hrow

theorem rehomeRow_placed {s : Fin 2} {r : Bool × World φ} (hinv : Inv ops r.2)
    (hplaced : Placed ops r.2) (i : Fin maxBlocks) : Placed ops (rehomeRow ops s r i).2 := by
  unfold rehomeRow
  split
  · rename_i hgo
    obtain ⟨-, hp, -⟩ := hgo
    obtain ⟨happ, -, -⟩ := emitEntry_spec hs (hinv.backed i hp) hinv.tail
    have hplain : (r.2.j.table i).chained = false → ∀ start seq,
        (emitEntry ops (r.2.j.table i) r.2).1 = some (start, seq) →
          PlainAt ops r.2.j.slots (emitEntry ops (r.2.j.table i) r.2).2.flash
            { r.2.j.table i with sector := r.2.j.active, seq := seq } := fun hc start seq hsome =>
      emitEntry_plain hs (hinv.backed i hp) hinv.tail hc (hplaced i hp hc) hsome rfl rfl rfl rfl rfl
    generalize emitEntry ops (r.2.j.table i) r.2 = q at happ hplain ⊢
    obtain ⟨new, w₁⟩ := q
    cases new with
    | none => exact hplaced.appended happ
    | some v =>
      obtain ⟨off, seq⟩ := v
      dsimp only at happ hplain ⊢
      intro k hpk hck
      by_cases hki : k = i
      · subst hki
        simp only [Function.update_self] at hpk hck ⊢
        rw [happ.table] at hck ⊢
        rw [happ.slots, happ.active]
        obtain ⟨n, hn⟩ := hplain hck off seq rfl
        exact ⟨n, hn⟩
      · simp only [Function.update_of_ne hki] at hpk hck ⊢
        exact hplaced.appended happ k hpk hck
  · exact hplaced

theorem rehomeRows_placed {s : Fin 2} (l : List (Fin maxBlocks)) {r : Bool × World φ}
    (hne : s ≠ r.2.j.active) (hinv : Inv ops r.2) (hplaced : Placed ops r.2) :
    Placed ops (l.foldl (rehomeRow ops s) r).2 := by
  induction l generalizing r with
  | nil => exact hplaced
  | cons i l ih =>
    obtain ⟨hre, -⟩ := rehomeRow_spec hs hne hinv i
    exact ih (by rw [hre.active]; exact hne) hre.inv (rehomeRow_placed hs hinv hplaced i)

theorem rehomeStrays_placed (hinv : Inv ops w) (hplaced : Placed ops w) (s : Fin 2) :
    Placed ops (rehomeStrays ops s w).2 := by
  unfold rehomeStrays
  by_cases hs' : s = w.j.active
  · rw [if_pos hs']
    exact hplaced
  · rw [if_neg hs']
    by_cases hz : strays w.j.table s = 0
    · rw [if_pos hz]
      split
      · exact hplaced.appended (emitMarker_spec hs hinv.tail).1
      · exact hplaced
    · rw [if_neg hz]
      by_cases hroom : w.j.slots - w.j.cursor < strays w.j.table s + if w.j.tailClean then 1 else 0
      · rw [if_pos hroom]
        exact hplaced
      · rw [if_neg hroom]
        obtain ⟨hre, -⟩ := rehomeRows_spec hs (List.finRange maxBlocks) (r := (true, w)) hs' hinv
        have hrows := rehomeRows_placed hs (List.finRange maxBlocks) (r := (true, w)) hs' hinv hplaced
        generalize (List.finRange maxBlocks).foldl (rehomeRow ops s) (true, w) = r at hre hrows ⊢
        dsimp only
        by_cases hok : r.1 = true
        · rw [if_neg (by simp [hok])]
          split
          · exact (hrows.appended (emitMarker_spec hs hre.inv.tail).1).congr rfl rfl rfl
          · exact hrows
        · rw [if_pos hok]
          exact hrows

/-- The erase of a sector that holds no value. -/
theorem erase_placed (hplaced : Placed ops w) {s : Fin 2}
    (hrows : ∀ k, (w.j.table k).present = true → (w.j.table k).sector ≠ s) :
    Placed ops { w with flash := (ops.erase w.flash s).2 } := by
  intro i hp hc
  obtain ⟨k, hlt, hb, hparse, hdata⟩ := hplaced i hp hc
  obtain ⟨hread, hbl⟩ := hs.erase_other w.flash s _ k (hrows i hp)
  have hslot : ops.slot (ops.erase w.flash s).2 (w.j.table i).sector k =
      ops.slot w.flash (w.j.table i).sector k := by
    rw [FlashOps.slot, hread]
    rfl
  exact ⟨k, hlt, hbl.trans hb, by rwa [hslot], by rwa [hslot]⟩

theorem compact_placed (hinv : Inv ops w) (hplaced : Placed ops w) : Placed ops (compact ops w).2 := by
  unfold compact
  split
  · exact hplaced
  · split
    · exact hplaced
    · split
      · exact hplaced
      · by_cases hc : w.j.partnerClean = true
        · rw [if_pos hc]
          exact compactInto_placed hs hinv hplaced (hinv.partner hc)
        · rw [if_neg hc]
          have hspec := rehomeStrays_spec hs hinv (other w.j.active)
          have hre' := rehomeStrays_placed hs hinv hplaced (other w.j.active)
          generalize rehomeStrays ops (other w.j.active) w = r at hspec hre' ⊢
          obtain ⟨ok, w₁⟩ := r
          obtain ⟨hre, hmoved⟩ := hspec
          dsimp only at hre hmoved hre' ⊢
          cases ok with
          | false => exact hre'
          | true =>
            rw [if_neg (by decide)]
            obtain ⟨-, hrows⟩ := hmoved rfl
            have hgone := erase_placed hs hre' hrows
            have herase := erase_spec hs hre.inv (by rw [hre.partnerClean]; simpa using hc)
              (by rw [hre.active]; exact hrows)
            rw [hre.active] at herase
            obtain ⟨hinv₂, -⟩ := herase
            by_cases hok : (ops.erase w₁.flash (other w.j.active)).1 = true
            · rw [if_pos hok]
              refine compactInto_placed hs hinv₂ hgone fun k _ => ?_
              have := hs.erase_ok w₁.flash (other w.j.active) k hok
              rw [← hre.active] at this
              rw [← hre.active]
              exact this
            · rw [if_neg hok]
              exact hgone

theorem ensureSpace_placed (hinv : Inv ops w) (hplaced : Placed ops w) (n : ℕ) :
    Placed ops (ensureSpace ops n w).2 := by
  have hcompact := compact_placed hs hinv hplaced
  unfold ensureSpace
  split
  · exact hplaced
  · split
    · split
      · exact hplaced
      · split
        · exact hplaced
        · dsimp only
          split
          · exact hcompact
          · split <;> exact hcompact
    · exact hplaced

/-! ## The operations -/

theorem append_placed (hinv : Inv ops w) (hplaced : Placed ops w) (block : UInt16)
    (data : List UInt8) (hid : block ≠ markerBlock ∧ block ≠ idReserved)
    (hmax : data.length ≤ chainDataMax) : Placed ops (append ops block data w).2 := by
  obtain ⟨hinv₀, -, hroom, -⟩ := ensureSpace_spec hs hinv (recordsFor data.length)
  have hplaced₀ := ensureSpace_placed hs hinv hplaced (recordsFor data.length)
  unfold append
  simp only [nparts_eq, append_records]
  generalize ensureSpace ops (recordsFor data.length) w = r at hinv₀ hroom hplaced₀ ⊢
  obtain ⟨ok, w₀⟩ := r
  dsimp only at hinv₀ hroom hplaced₀ ⊢
  cases ok with
  | false => exact hplaced₀
  | true =>
    rw [if_neg (by decide)]
    cases slotFor w₀.j.table block with
    | none => exact hplaced₀
    | some i =>
      dsimp only
      obtain ⟨hroom, -⟩ := hroom rfl
      have hinv₁ : Inv ops w₀.dirtied.nextSeq := hinv₀.dirtied.nextSeq
      have hplaced₁ : Placed ops w₀.dirtied.nextSeq := hplaced₀
      obtain ⟨happ, -⟩ := programValue_spec hs (w := w₀.dirtied.nextSeq) rfl hid hmax hinv₁.tail hroom
      by_cases hok : (programValue ops block data w₀.dirtied.nextSeq.j.maxSeq
          w₀.dirtied.nextSeq).1 = true
      · rw [if_neg (by simp [hok])]
        intro k hpk hck
        by_cases hki : k = i
        · subst hki
          simp only [Function.update_self] at hpk hck ⊢
          -- a chained value is no plain row
          have hshort : ¬dataMax < data.length := by simpa using hck
          rw [programValue, if_neg hshort] at happ hok ⊢
          have hone : recordsFor data.length = 1 := if_pos (Nat.not_lt.mp hshort)
          rw [hone] at hroom
          rw [happ.slots]
          refine plainAt_program hs (Nat.not_lt.mp hshort) rfl hinv₁.tail hroom hok happ.active rfl rfl
            rfl ?_
          simp [hshort]
        · simp only [Function.update_of_ne hki] at hpk hck ⊢
          exact hplaced₁.appended happ k hpk hck
      · rw [if_pos hok]
        exact hplaced₁.appended happ

theorem erasePending_placed (hinv : Inv ops w) (hplaced : Placed ops w) :
    Placed ops (erasePending ops w).2 := by
  unfold erasePending
  split
  · exact hplaced
  · split
    · exact hplaced
    · split
      · exact hplaced
      · split
        · exact hplaced
        · rename_i s _ _ _
          have hspec := rehomeStrays_spec hs hinv s
          have hre := rehomeStrays_placed hs hinv hplaced s
          generalize rehomeStrays ops s w = r at hspec hre ⊢
          obtain ⟨ok, w₁⟩ := r
          obtain ⟨-, hmoved⟩ := hspec
          dsimp only at hmoved hre ⊢
          cases ok with
          | false => exact hre
          | true =>
            rw [if_neg (by decide)]
            have hgone := erase_placed hs hre (hmoved rfl).2
            split
            · exact hgone.congr rfl rfl rfl
            · exact hgone

theorem step_placed (hinv : Inv ops w) (hplaced : Placed ops w) (o : Op) :
    Placed ops (step ops w o) := by
  cases o with
  | put block data =>
    change Placed ops (put ops block data w).2
    unfold put
    split
    · exact hplaced
    · rename_i hid
      split
      · exact hplaced
      · rename_i hlen
        split
        · exact hplaced
        · push Not at hid hlen
          exact append_placed hs hinv hplaced block data hid.2 hlen.2
  | markClean =>
    change Placed ops (markClean ops w).2
    unfold markClean
    split
    · exact hplaced
    · obtain ⟨hinv₀, -, hroom, -⟩ := ensureSpace_spec hs hinv 1
      have hplaced₀ := ensureSpace_placed hs hinv hplaced 1
      generalize ensureSpace ops 1 w = r at hinv₀ hroom hplaced₀ ⊢
      obtain ⟨ok, w₀⟩ := r
      dsimp only at hinv₀ hroom hplaced₀ ⊢
      cases ok with
      | false => exact hplaced₀
      | true =>
        rw [if_neg (by decide)]
        have hplaced₁ : Placed ops w₀.nextSeq := hplaced₀
        obtain ⟨happ, -⟩ := programSlot_spec hs (w := w₀.nextSeq)
          (p := encodeRecord markerBlock 0 w₀.nextSeq.j.maxSeq fun _ => 0)
          (fun v hv => encodeRecord_seq hv) (hinv₀.nextSeq.tail w₀.j.cursor (Nat.le_refl _) (hroom rfl).1)
        have hmark := hplaced₁.appended happ
        split
        · exact hmark.congr rfl rfl rfl
        · exact hmark
  | compact => exact compact_placed hs hinv hplaced
  | erasePending => exact erasePending_placed hs hinv hplaced
  | prune keep =>
    obtain ⟨-, hslots, hrow⟩ := prune_spec hinv keep
    have hflash : (prune keep w).flash = w.flash := by
      unfold prune
      split <;> rfl
    intro i hp hc
    have heq := hrow i hp
    change ((prune keep w).j.table i).present = true at hp
    change ((prune keep w).j.table i).chained = false at hc
    change PlainAt ops (prune keep w).j.slots (prune keep w).flash ((prune keep w).j.table i)
    rw [heq] at hp hc ⊢
    rw [hslots, hflash]
    exact hplaced i hp hc

end Sound

/-! ## Mounting -/

theorem mountSlot_placed {slots m : ℕ} {f : φ} {s : Fin 2} {r : Recovery × Sector} (hm : m < slots)
    (h : ∀ i, (r.1.table i).present = true → (r.1.table i).chained = false →
      PlainAt ops slots f (r.1.table i)) :
    ∀ i, ((mountSlot ops f s r m).1.table i).present = true →
      ((mountSlot ops f s r m).1.table i).chained = false →
        PlainAt ops slots f ((mountSlot ops f s r m).1.table i) := by
  rcases mountSlot_cases ops f s r m with ⟨-, h1, -⟩ | ⟨-, -, h1, -⟩ |
    ⟨blk, lenf, seq, hb, hparse, hpart, ⟨-, h1, -⟩ | ⟨-, h1, -⟩⟩ |
    ⟨blk, lenf, seq, hb, hparse, hpart, -, ⟨-, h1⟩ | ⟨-, h1⟩⟩
  · rw [h1]
    exact h
  · rw [h1]
    exact h
  · rw [h1]
    exact h
  · rw [h1]
    exact adopt_forall (P := fun e => e.chained = false → PlainAt ops slots f e) h
      fun e hc => by cases hc
  · rw [h1]
    exact h
  · rw [h1]
    refine adopt_forall (P := fun e => e.chained = false → PlainAt ops slots f e) h
      fun e _ => ⟨m, hm, hb, ?_, rfl⟩
    change parseRecord (ops.slot f s m) = some (blk, UInt16.ofNat lenf.toNat, seq)
    rw [hparse, UInt16.ofNat_toNat]

theorem mountSector_placed {slots n : ℕ} {f : φ} {s : Fin 2} {r : Recovery} (hn : n ≤ slots)
    (h : ∀ i, (r.table i).present = true → (r.table i).chained = false →
      PlainAt ops slots f (r.table i)) :
    ∀ i, ((mountSector ops f s r n).1.table i).present = true →
      ((mountSector ops f s r n).1.table i).chained = false →
        PlainAt ops slots f ((mountSector ops f s r n).1.table i) := by
  induction n with
  | zero => exact h
  | succ n ih =>
    rw [mountSector_succ]
    exact mountSlot_placed hn (ih (by omega))

/-- What a mount adopts lies in flash. -/
theorem mount_placed (hok : (mount ops w).1 = true) : Placed ops (mount ops w).2 := by
  unfold mount at hok ⊢
  by_cases h0 : w.j.slots = 0
  · simp [h0] at hok
  · rw [if_neg h0]
    exact mountSector_placed (Nat.le_refl _) (mountSector_placed (Nat.le_refl _)
      fun i hp _ => by cases hp)

/-! ## The sectors -/

/-- An erase is pending exactly when the partner is not known to be erased, and never of the active
sector. -/
structure Partnered (j : Journal) : Prop where
  pending : j.pendingErase = none ↔ j.partnerClean = true
  active : j.pendingErase ≠ some j.active

theorem Partnered.congr {j j' : Journal} (h : Partnered j) (hp : j'.pendingErase = j.pendingErase)
    (hc : j'.partnerClean = j.partnerClean) (ha : j'.active = j.active) : Partnered j' :=
  ⟨by rw [hp, hc]; exact h.pending, by rw [hp, ha]; exact h.active⟩

theorem mount_partnered (hok : (mount ops w).1 = true) : Partnered (mount ops w).2.j := by
  unfold mount at hok ⊢
  by_cases h0 : w.j.slots = 0
  · simp [h0] at hok
  · rw [if_neg h0]
    dsimp only
    generalize (![_, _] : Fin 2 → Sector) = sec
    cases hc : (sec (other (activeOf sec))).clean with
    | true => exact ⟨by simp, by simp⟩
    | false => exact ⟨by simp, by simpa using other_ne _⟩

section Sound

variable (hs : Sound ops)
include hs

theorem compactInto_partnered (hinv : Inv ops w)
    (hpart : ∀ k < w.j.slots, ops.slotBlank w.flash (other w.j.active) k = true) :
    Partnered (compactInto ops w).2.j := by
  have ht : TailBlank ops w.copying := fun k _ hlt => hpart k hlt
  obtain ⟨happ, -, -⟩ := copyAll_spec hs (List.finRange maxBlocks) (List.nodup_finRange _)
    (fun _ => (0, 0)) (w := w.copying) hinv.backed ht
  have hback : ∀ w₁ : World φ, Partnered (w.reverted w₁).j := fun w₁ =>
    ⟨by simp [World.reverted], by simpa [World.reverted] using other_ne w.j.active⟩
  have hdone : ∀ (news : Fin maxBlocks → ℕ × UInt32) (w₁ : World φ), Appended ops w.copying w₁ →
      Partnered (w.switched w₁ news).j := by
    intro news w₁ h
    have hclean : w₁.j.partnerClean = false := h.partnerClean
    have hact : w₁.j.active = other w.j.active := h.active
    refine ⟨by simp [World.switched, hclean], ?_⟩
    simpa [World.switched, hact] using (other_ne w.j.active).symm
  unfold compactInto
  generalize copyAll ops (List.finRange maxBlocks) (fun _ => (0, 0)) w.copying = r at happ ⊢
  obtain ⟨news, w₁⟩ := r
  cases news with
  | none => exact hback w₁
  | some news =>
    dsimp only at happ ⊢
    split
    · obtain ⟨hmark, -, -⟩ := emitMarker_spec hs (happ.tail ht)
      generalize emitMarker ops w₁ = m at hmark ⊢
      obtain ⟨ok, w₂⟩ := m
      cases ok with
      | true => exact hdone news w₂ (happ.trans hmark)
      | false => exact hback w₂
    · exact hdone news w₁ happ

theorem compact_partnered (hinv : Inv ops w) (h : Partnered w.j) :
    Partnered (compact ops w).2.j := by
  unfold compact
  split
  · exact h
  · split
    · exact h
    · split
      · exact h
      · by_cases hc : w.j.partnerClean = true
        · rw [if_pos hc]
          exact compactInto_partnered hs hinv (hinv.partner hc)
        · rw [if_neg hc]
          have hspec := rehomeStrays_spec hs hinv (other w.j.active)
          generalize rehomeStrays ops (other w.j.active) w = r at hspec ⊢
          obtain ⟨ok, w₁⟩ := r
          obtain ⟨hre, hmoved⟩ := hspec
          dsimp only at hre hmoved ⊢
          have h₁ := h.congr hre.pendingErase hre.partnerClean hre.active
          cases ok with
          | false => exact h₁
          | true =>
            rw [if_neg (by decide)]
            obtain ⟨-, hrows⟩ := hmoved rfl
            have herase := erase_spec hs hre.inv (by rw [hre.partnerClean]; simpa using hc)
              (by rw [hre.active]; exact hrows)
            rw [hre.active] at herase
            obtain ⟨hinv₂, -⟩ := herase
            by_cases hok : (ops.erase w₁.flash (other w.j.active)).1 = true
            · rw [if_pos hok]
              refine compactInto_partnered hs hinv₂ fun k _ => ?_
              have := hs.erase_ok w₁.flash (other w.j.active) k hok
              rw [← hre.active] at this
              rw [← hre.active]
              exact this
            · rw [if_neg hok]
              exact h₁

theorem ensureSpace_partnered (hinv : Inv ops w) (h : Partnered w.j) (n : ℕ) :
    Partnered (ensureSpace ops n w).2.j := by
  have hcompact := compact_partnered hs hinv h
  unfold ensureSpace
  split
  · exact h
  · split
    · split
      · exact h
      · split
        · exact h
        · dsimp only
          split
          · exact hcompact
          · split <;> exact hcompact
    · exact h

theorem append_partnered (hinv : Inv ops w) (h : Partnered w.j) (block : UInt16)
    (data : List UInt8) : Partnered (append ops block data w).2.j := by
  have hfields : ∀ (p : Ptr) (w : World φ), (programSlot ops w p).2.j =
      { w.j with cursor := w.j.cursor + 1 } := by
    intro p w
    unfold programSlot
    dsimp only
    split
    · rfl
    · split <;> rfl
  have hparts : ∀ (seq : UInt32) (l : List (UInt16 × Ptr)) (w : World φ), Partnered w.j →
      Partnered (programParts ops block seq l w).2.j := by
    intro seq l
    induction l with
    | nil => exact fun w h => h
    | cons x l ih =>
      intro w h
      have hslot : Partnered (programSlot ops w (encodeRecord block x.1 seq x.2)).2.j :=
        h.congr (by rw [hfields]) (by rw [hfields]) (by rw [hfields])
      rw [programParts]
      split
      · exact ih _ hslot
      · exact hslot
  unfold append
  simp only [nparts_eq, append_records]
  have h₀ := ensureSpace_partnered hs hinv h (recordsFor data.length)
  generalize ensureSpace ops (recordsFor data.length) w = r at h₀ ⊢
  by_cases hok : r.1 = true
  · rw [if_neg (by simp [hok])]
    cases slotFor r.2.j.table block with
    | none => exact h₀
    | some i =>
      dsimp only
      have h₁ : Partnered r.2.dirtied.nextSeq.j := h₀.congr rfl rfl rfl
      have hp : Partnered (programValue ops block data r.2.dirtied.nextSeq.j.maxSeq
          r.2.dirtied.nextSeq).2.j := by
        unfold programValue
        split
        · exact hparts _ _ _ h₁
        · exact h₁.congr (by rw [hfields]) (by rw [hfields]) (by rw [hfields])
      split
      · exact hp
      · exact hp.congr rfl rfl rfl
  · rw [if_pos hok]
    exact h₀

theorem step_partnered (hinv : Inv ops w) (h : Partnered w.j) (o : Op) :
    Partnered (step ops w o).j := by
  cases o with
  | put block data =>
    change Partnered (put ops block data w).2.j
    unfold put
    split
    · exact h
    · split
      · exact h
      · split
        · exact h
        · exact append_partnered hs hinv h block data
  | markClean =>
    change Partnered (markClean ops w).2.j
    unfold markClean
    split
    · exact h
    · obtain ⟨hinv₀, -, hroom, -⟩ := ensureSpace_spec hs hinv 1
      have h₀ := ensureSpace_partnered hs hinv h 1
      generalize ensureSpace ops 1 w = r at hinv₀ hroom h₀ ⊢
      obtain ⟨ok, w₀⟩ := r
      dsimp only at hinv₀ hroom h₀ ⊢
      cases ok with
      | false => exact h₀
      | true =>
        rw [if_neg (by decide)]
        obtain ⟨happ, -⟩ := programSlot_spec hs (w := w₀.nextSeq)
          (p := encodeRecord markerBlock 0 w₀.nextSeq.j.maxSeq fun _ => 0)
          (fun v hv => encodeRecord_seq hv) (hinv₀.nextSeq.tail w₀.j.cursor (Nat.le_refl _) (hroom rfl).1)
        have h₁ := h₀.congr happ.pendingErase happ.partnerClean happ.active
        split
        · exact h₁.congr rfl rfl rfl
        · exact h₁
  | compact => exact compact_partnered hs hinv h
  | erasePending =>
    change Partnered (erasePending ops w).2.j
    unfold erasePending
    split
    · exact h
    · cases hpend : w.j.pendingErase with
      | none => exact h
      | some s =>
        dsimp only
        split
        · exact h
        · split
          · exact h
          · obtain ⟨hre, -⟩ := rehomeStrays_spec hs hinv s
            have h₁ := h.congr hre.pendingErase hre.partnerClean hre.active
            split
            · exact h₁
            · split
              · exact ⟨by simp, by simp⟩
              · exact h₁
  | prune keep =>
    change Partnered (prune keep w).j
    unfold prune
    split
    · exact h
    · exact h.congr rfl rfl rfl

end Sound

/-! ## Every state of a session -/

/-- A row names intact records of its block under its number. -/
def Intact (ops : FlashOps φ) (slots : ℕ) (f : φ) (e : Entry) : Prop :=
  if e.chained then ∃ parts, Stored ops slots f e parts else PlainAt ops slots f e

/-- What a session keeps. -/
structure Represents (ops : FlashOps φ) (w : World φ) : Prop where
  inv : Inv ops w
  placed : Placed ops w
  sectors : Partnered w.j

theorem Represents.intact (h : Represents ops w) {i : Fin maxBlocks}
    (hp : (w.j.table i).present = true) : Intact ops w.j.slots w.flash (w.j.table i) := by
  have hb := h.inv.backed i hp
  unfold Intact
  unfold Backed at hb
  by_cases hc : (w.j.table i).chained = true
  · rw [if_pos hc] at hb ⊢
    exact hb
  · rw [if_neg hc]
    exact h.placed i hp (by simpa using hc)

theorem mount_represents (idle : w.j.compacting = false) (hok : (mount ops w).1 = true) :
    Represents ops (mount ops w).2 :=
  ⟨mount_spec idle hok, mount_placed hok, mount_partnered hok⟩

theorem step_represents (hs : Sound ops) (h : Represents ops w) (o : Op) :
    Represents ops (step ops w o) :=
  ⟨step_inv hs h.inv o, step_placed hs h.inv h.placed o, step_partnered hs h.inv h.sectors o⟩

theorem run_represents (hs : Sound ops) (h : Represents ops w) (os : List Op) :
    Represents ops (run ops w os) := by
  induction os generalizing w with
  | nil => exact h
  | cons o os ih => exact ih (step_represents hs h o)

/-- **The journal and its flash.** After a mount of any flash and any operations, whatever of them
fails: the records that were appended since the mount are in order, above every valid record that the
mount found and at most one above the ceiling; at the ceiling nothing more is appended and a put or a
marker is refused; a partner known to be clean is erased; an erase is pending exactly when it is not
known to be, and never of the active sector; and every row names intact records of its block under
its number. -/
theorem journal_representation (hs : Sound ops) {w₀ : World (φ × List Ptr)}
    (idle : w₀.j.compacting = false) (hok : (mount ops.logged w₀).1 = true) (os : List Op) :
    let w₁ := (mount ops.logged w₀).2
    let w := run ops.logged w₁ os
    (Bounded ops.logged w₁ ∧ ∃ l, w.flash.2 = w₁.flash.2 ++ l ∧ l.Pairwise Before ∧
      ∀ p ∈ l, w₁.j.maxSeq < seqOf p ∧ seqOf p ≤ w.j.maxSeq ∧
        (seqOf p).toNat ≤ seqCeiling.toNat + 1) ∧
    (seqCeiling ≤ w.j.maxSeq →
      (∀ o, (step ops.logged w o).flash.2 = w.flash.2 ∧ (step ops.logged w o).j.maxSeq = w.j.maxSeq) ∧
      (∀ block data, (put ops.logged block data w).1 = false) ∧ (markClean ops.logged w).1 = false) ∧
    (w.j.partnerClean = true →
      ∀ k < w.j.slots, ops.logged.slotBlank w.flash (other w.j.active) k = true) ∧
    (w.j.pendingErase = none ↔ w.j.partnerClean = true) ∧ w.j.pendingErase ≠ some w.j.active ∧
    ∀ i, (w.j.table i).present = true →
      Intact ops.logged w.j.slots w.flash (w.j.table i) := by
  intro w₁ w
  have hrep : Represents ops.logged w :=
    run_represents (logged_sound hs) (mount_represents idle hok) os
  have happ : Appends w₁ w := run_appends ops os w₁
  obtain ⟨l, hl, hord, hfresh⟩ := happ.numbered.records
  refine ⟨⟨mount_bounded hok, l, hl, hord, fun p hp => ⟨(hfresh p hp).1, (hfresh p hp).2, ?_⟩⟩,
    fun hc => ⟨fun o => (step_appends ops w o).frozen hc,
      fun block data => (frozen_refuses ops hc block data).1, (frozen_refuses ops hc 0 []).2⟩,
    hrep.inv.partner, hrep.sectors.pending, hrep.sectors.active, fun i hp => hrep.intact hp⟩
  have hlim := happ.numbered.limit
  have hle := UInt32.le_iff_toNat_le.mp (hfresh p hp).2
  by_cases hc : seqCeiling ≤ w₁.j.maxSeq
  · -- a journal that is mounted at the ceiling has appended nothing
    have hsame := (happ.frozen hc).1
    rw [hl] at hsame
    rw [List.append_right_eq_self.mp hsame] at hp
    cases hp
  · have hlt : w₁.j.maxSeq.toNat < seqCeiling.toNat :=
      Nat.lt_of_not_le fun h => hc (UInt32.le_iff_toNat_le.mpr h)
    omega

/-- A pair of erased sectors and an empty list. -/
def fresh : World ((Fin 2 → ℕ → Option Ptr) × List Ptr) where
  j := erased.j
  flash := (erased.flash, [])

theorem journal_representation_fresh :
    (run memFlash.logged (mount memFlash.logged fresh).2
      [.put 5 (List.replicate 21 7), .put 6 [1], .compact, .erasePending]).j.pendingErase ≠
        some (run memFlash.logged (mount memFlash.logged fresh).2
          [.put 5 (List.replicate 21 7), .put 6 [1], .compact, .erasePending]).j.active :=
  (journal_representation memFlash_sound (by decide +kernel) (by decide +kernel)
    [.put 5 (List.replicate 21 7), .put 6 [1], .compact, .erasePending]).2.2.2.2.1

/-- The parts of a value have one number. -/
theorem parts_share_number : Sound memFlash.logged ∧ (mount memFlash.logged fresh).1 = true ∧
    ¬(run memFlash.logged (mount memFlash.logged fresh).2
      [.put 5 (List.replicate 21 7)]).flash.2.Pairwise fun p q => seqOf p < seqOf q := by
  have hseqs : (run memFlash.logged (mount memFlash.logged fresh).2
      [.put 5 (List.replicate 21 7)]).flash.2.map seqOf = [1, 1] := by
    decide +kernel
  refine ⟨logged_sound memFlash_sound, by decide +kernel, fun h => ?_⟩
  have hmap := List.pairwise_map.mpr h
  rw [hseqs] at hmap
  revert hmap
  decide

end BloblyEmb.Nvm
