import BloblyEmb.Nvm.Headroom

/-!
# Mounting

A mount scans both sectors slot by slot (`mount`), fills the table with the newest value of each
block and derives where to append. Whatever lies in flash, what it adopts is backed there.
-/
namespace BloblyEmb.Nvm

/-- What a mount gathers over both sectors. -/
structure Recovery where
  table : Fin maxBlocks → Entry := fun _ => {}
  maxSeq : UInt32 := 0
  poolOverflow : Bool := false
  newestIsMarker : Bool := true
  newestSeq : UInt32 := 0
  anyValid : Bool := false

/-- What it gathers over one sector. -/
structure Sector where
  nonempty : Bool := false
  dirtyTail : Bool := false
  clean : Bool := true
  trailingInvalid : Bool := false
  cursor : ℕ := 0
  maxSeqIn : UInt32 := 0
  pastEnd : Bool := false
  cs : ChainScan := {}

/-- A row that holds the newest value of a block. -/
def Entry.newest (e : Entry) (id : UInt16) (seq : UInt32) : Entry :=
  { e with
    present := true
    id := id
    seq := seq }

/-- A value is installed if it is newer than what the table holds for its block. -/
def Recovery.adopt (r : Recovery) (id : UInt16) (seq : UInt32) (value : Entry → Entry) : Recovery :=
  match slotFor r.table id with
  | none => { r with poolOverflow := true }
  | some i =>
    if ¬(r.table i).present ∨ (r.table i).seq < seq then
      { r with table := Function.update r.table i ((value (r.table i)).newest id seq) }
    else r

def plainValue (s : Fin 2) (len : ℕ) (data : List UInt8) (e : Entry) : Entry :=
  { e with
    sector := s
    chained := false
    len := len
    data := data }

/-- `adopt_chain` -/
def chainValue (s : Fin 2) (cs : ChainScan) (e : Entry) : Entry :=
  { e with
    sector := s
    chained := true
    len := cs.total
    refOff := cs.start }

/-- Every valid record counts towards the sequence numbers and the verdict on the last session. -/
def Recovery.note (r : Recovery) (blk lenf : UInt16) (seq : UInt32) : Recovery :=
  { r with
    anyValid := true
    maxSeq := if r.maxSeq < seq then seq else r.maxSeq
    newestSeq := if r.newestSeq < seq then seq else r.newestSeq
    newestIsMarker := if r.newestSeq < seq then blk = markerBlock ∧ ¬isPart lenf
      else r.newestIsMarker }

variable {φ : Type}

/-- One slot of a sector. -/
def mountSlot (ops : FlashOps φ) (f : φ) (s : Fin 2) (r : Recovery × Sector) (off : ℕ) :
    Recovery × Sector :=
  if ops.slotBlank f s off then
    (r.1, { r.2 with
      cs := r.2.cs.broken.2
      pastEnd := true
      cursor := if r.2.pastEnd then r.2.cursor else off })
  else
    let sec := { r.2 with
      clean := false
      dirtyTail := r.2.dirtyTail || r.2.pastEnd
      nonempty := true
      cursor := if r.2.pastEnd then r.2.cursor else off + 1 }
    match parseRecord (ops.slot f s off) with
    | none => (r.1, { sec with trailingInvalid := true, cs := sec.cs.broken.2 })
    | some (blk, lenf, seq) =>
      let sec := { sec with trailingInvalid := false }
      let r := r.1.note blk lenf seq
      let newer := fun seq => if sec.maxSeqIn < seq then seq else sec.maxSeqIn
      if isPart lenf then
        let c := chainStep sec.cs blk lenf seq off (ops.slot f s off)
        if c.1 then
          (r.adopt c.2.id c.2.seq (chainValue s c.2),
            { sec with cs := c.2.broken.2, maxSeqIn := newer c.2.seq })
        else (r, { sec with cs := c.2 })
      else
        let sec := { sec with cs := sec.cs.broken.2, maxSeqIn := newer seq }
        if blk = markerBlock ∨ blk = idReserved then (r, sec)
        else (r.adopt blk seq (plainValue s lenf.toNat ((ops.slot f s off).slice 8 lenf.toNat)), sec)

/-- The first `n` slots of a sector. -/
def mountSector (ops : FlashOps φ) (f : φ) (s : Fin 2) (r : Recovery) (n : ℕ) : Recovery × Sector :=
  (List.range n).foldl (mountSlot ops f s) (r, {})

/-- The active sector: the one with the newest content, unless only its own tail is dirty. -/
def activeOf (sec : Fin 2 → Sector) : Fin 2 :=
  let a : Fin 2 :=
    if (sec 0).nonempty ∧ (sec 1).nonempty then
      if (sec 0).maxSeqIn < (sec 1).maxSeqIn then 1 else 0
    else if (sec 1).nonempty then 1 else 0
  if (sec a).dirtyTail ∧ ¬(sec (other a)).dirtyTail then other a else a

def mount (ops : FlashOps φ) (w : World φ) : Bool × World φ :=
  if w.j.slots = 0 then (false, w)
  else
    let a := mountSector ops w.flash 0 {} w.j.slots
    let b := mountSector ops w.flash 1 a.1 w.j.slots
    let sec : Fin 2 → Sector := ![a.2, b.2]
    let act := activeOf sec
    let clean := b.1.newestIsMarker &&
      !(((sec 0).nonempty || (sec 1).nonempty) && !b.1.anyValid) && !(sec act).trailingInvalid
    (true, { w with j := { w.j with
      table := b.1.table
      maxSeq := b.1.maxSeq
      poolOverflow := b.1.poolOverflow
      active := act
      clean := clean
      tailClean := clean
      cursor := if (sec act).dirtyTail then w.j.slots else (sec act).cursor
      partnerClean := (sec (other act)).clean
      pendingErase := if (sec (other act)).clean then none else some (other act)
      mounted := true } })

/-! ## Adoption -/

section Adopt

variable {r : Recovery} {id : UInt16} {seq : UInt32} {value : Entry → Entry}

theorem adopt_cases (r : Recovery) (id : UInt16) (seq : UInt32) (value : Entry → Entry) :
    (slotFor r.table id = none ∧ r.adopt id seq value = { r with poolOverflow := true }) ∨
    (∃ i, slotFor r.table id = some i ∧ (r.table i).present = true ∧ ¬(r.table i).seq < seq ∧
      r.adopt id seq value = r) ∨
    (∃ i, slotFor r.table id = some i ∧ ((r.table i).present = true → (r.table i).seq < seq) ∧
      r.adopt id seq value =
        { r with table := Function.update r.table i ((value (r.table i)).newest id seq) }) := by
  unfold Recovery.adopt
  cases hrow : slotFor r.table id with
  | none => exact .inl ⟨rfl, rfl⟩
  | some i =>
    dsimp only
    by_cases h : ¬(r.table i).present ∨ (r.table i).seq < seq
    · rw [if_pos h]
      refine .inr (.inr ⟨i, rfl, fun hp => ?_, rfl⟩)
      exact h.resolve_left (by simp [hp])
    · rw [if_neg h]
      exact .inr (.inl ⟨i, rfl, by simpa using fun hp => h (.inl hp), fun hlt => h (.inr hlt), rfl⟩)

/-- What a table holds still does when one more value is adopted, if the value has it. -/
theorem adopt_forall {P : Entry → Prop} (h : ∀ i, (r.table i).present → P (r.table i))
    (hnew : ∀ e : Entry, P ((value e).newest id seq))
    (i : Fin maxBlocks) (hp : ((r.adopt id seq value).table i).present) :
    P ((r.adopt id seq value).table i) := by
  rcases adopt_cases r id seq value with
    ⟨-, heq⟩ | ⟨k, -, -, -, heq⟩ | ⟨k, -, -, heq⟩
  · rw [heq] at hp ⊢
    exact h i hp
  · rw [heq] at hp ⊢
    exact h i hp
  · rw [heq] at hp ⊢
    by_cases hik : i = k
    · subst hik
      simp only [Function.update_self]
      exact hnew _
    · simp only [Function.update_of_ne hik] at hp ⊢
      exact h i hp

end Adopt

/-! ## What a scan knows -/

variable {ops : FlashOps φ} {f : φ} {s : Fin 2}

/-- The slots of a sector as a scan sees them: nothing in a blank one. -/
def FlashOps.shown (ops : FlashOps φ) (f : φ) (s : Fin 2) (k : ℕ) : Ptr :=
  if ops.slotBlank f s k then fun _ => 0 else ops.slot f s k

theorem shown_of_not_blank {k : ℕ} (h : ops.slotBlank f s k = false) :
    ops.shown f s k = ops.slot f s k := by
  rw [FlashOps.shown, if_neg (by simp [h])]

theorem not_blank_of_parse {k : ℕ} (h : parseRecord (ops.shown f s k) ≠ none) :
    ops.slotBlank f s k = false := by
  by_contra hb
  rw [FlashOps.shown, if_pos (by simpa using hb)] at h
  exact h parseRecord_zero

/-- A chain that a scan sees lies in flash. -/
theorem stored_of_shown {slots : ℕ} {e : Entry} {parts : List (List UInt8)}
    (h : IsChain (ops.shown f e.sector) e.refOff e.id e.seq e.len parts)
    (hrange : e.refOff + parts.length ≤ slots) : Stored ops slots f e parts := by
  have hb : ∀ k < parts.length, ops.slotBlank f e.sector (e.refOff + k) = false := by
    intro k hk
    obtain ⟨⟨lenf, hparse, -⟩, -⟩ := h.part k hk
    exact not_blank_of_parse (by rw [hparse]; simp)
  exact ⟨h.congr fun k hk => (shown_of_not_blank (hb k hk)).symm, hrange, hb⟩

/-- What holds after the first `m` slots of sector `s`. -/
structure Scanned (ops : FlashOps φ) (slots : ℕ) (f : φ) (s : Fin 2) (m : ℕ)
    (r : Recovery × Sector) : Prop where
  backed : ∀ i, (r.1.table i).present → Backed ops slots f (r.1.table i)
  run : ScanInv (ops.shown f s) r.2.cs
  frontier : r.2.pastEnd = false → r.2.cursor = m
  tail : r.2.dirtyTail = false → ∀ k, r.2.cursor ≤ k → k < m → ops.slotBlank f s k = true
  clean : r.2.clean = true → ∀ k < m, ops.slotBlank f s k = true

theorem parseRecord_plain {p : Ptr} {blk lenf : UInt16} {seq : UInt32}
    (h : parseRecord p = some (blk, lenf, seq)) (hp : isPart lenf = false) :
    lenf.toNat ≤ dataMax := by
  unfold parseRecord at h
  dsimp only at h
  split at h
  · cases h
  · split at h
    · cases h
    · rename_i h2
      split at h
      · cases h
      · simp only [Option.some.injEq, Prod.mk.injEq] at h
        obtain ⟨-, rfl, -⟩ := h
        by_contra hcon
        exact h2 ⟨by simp [hp], by omega⟩

/-- A slot, by what lies there. -/
theorem mountSlot_cases (ops : FlashOps φ) (f : φ) (s : Fin 2) (r : Recovery × Sector) (m : ℕ) :
    (ops.slotBlank f s m = true ∧ (mountSlot ops f s r m).1 = r.1 ∧
      (mountSlot ops f s r m).2.cs = r.2.cs.broken.2) ∨
    (ops.slotBlank f s m = false ∧ parseRecord (ops.slot f s m) = none ∧
      (mountSlot ops f s r m).1 = r.1 ∧ (mountSlot ops f s r m).2.cs = r.2.cs.broken.2) ∨
    (∃ blk lenf seq, ops.slotBlank f s m = false ∧
      parseRecord (ops.slot f s m) = some (blk, lenf, seq) ∧ isPart lenf = true ∧
      (((chainStep r.2.cs blk lenf seq m (ops.slot f s m)).1 = false ∧
          (mountSlot ops f s r m).1 = r.1.note blk lenf seq ∧
          (mountSlot ops f s r m).2.cs = (chainStep r.2.cs blk lenf seq m (ops.slot f s m)).2) ∨
        ((chainStep r.2.cs blk lenf seq m (ops.slot f s m)).1 = true ∧
          (mountSlot ops f s r m).1 = (r.1.note blk lenf seq).adopt
            (chainStep r.2.cs blk lenf seq m (ops.slot f s m)).2.id
            (chainStep r.2.cs blk lenf seq m (ops.slot f s m)).2.seq
            (chainValue s (chainStep r.2.cs blk lenf seq m (ops.slot f s m)).2) ∧
          (mountSlot ops f s r m).2.cs =
            (chainStep r.2.cs blk lenf seq m (ops.slot f s m)).2.broken.2))) ∨
    (∃ blk lenf seq, ops.slotBlank f s m = false ∧
      parseRecord (ops.slot f s m) = some (blk, lenf, seq) ∧ isPart lenf = false ∧
      (mountSlot ops f s r m).2.cs = r.2.cs.broken.2 ∧
      (((blk = markerBlock ∨ blk = idReserved) ∧
          (mountSlot ops f s r m).1 = r.1.note blk lenf seq) ∨
        ((blk ≠ markerBlock ∧ blk ≠ idReserved) ∧
          (mountSlot ops f s r m).1 = (r.1.note blk lenf seq).adopt blk seq
            (plainValue s lenf.toNat ((ops.slot f s m).slice 8 lenf.toNat))))) := by
  unfold mountSlot
  by_cases hb : ops.slotBlank f s m = true
  · left
    simp [hb]
  · have hb' : ops.slotBlank f s m = false := by simpa using hb
    cases hparse : parseRecord (ops.slot f s m) with
    | none =>
      right; left
      simp [hb']
    | some v =>
      obtain ⟨blk, lenf, seq⟩ := v
      by_cases hpart : isPart lenf = true
      · right; right; left
        refine ⟨blk, lenf, seq, hb', rfl, hpart, ?_⟩
        cases hc : (chainStep r.2.cs blk lenf seq m (ops.slot f s m)).1 with
        | false => simp [hb', hpart, hc]
        | true => simp [hb', hpart, hc]
      · right; right; right
        have hpart' : isPart lenf = false := by simpa using hpart
        refine ⟨blk, lenf, seq, hb', rfl, hpart', ?_, ?_⟩
        · simp only [hb', hpart', Bool.false_eq_true, if_false]
          split <;> rfl
        · by_cases hblk : blk = markerBlock ∨ blk = idReserved
          · left
            simp [hb', hpart', hblk]
          · right
            simp only [hb', hpart', hblk, Bool.false_eq_true, if_false, and_true]
            push Not at hblk
            exact hblk

/-- The frontier of a sector, by what lies in a slot. -/
theorem mountSlot_sector (ops : FlashOps φ) (f : φ) (s : Fin 2) (r : Recovery × Sector) (m : ℕ) :
    (ops.slotBlank f s m = true ∧ (mountSlot ops f s r m).2.pastEnd = true ∧
      (mountSlot ops f s r m).2.cursor = (if r.2.pastEnd then r.2.cursor else m) ∧
      (mountSlot ops f s r m).2.dirtyTail = r.2.dirtyTail ∧
      (mountSlot ops f s r m).2.clean = r.2.clean) ∨
    (ops.slotBlank f s m = false ∧ (mountSlot ops f s r m).2.pastEnd = r.2.pastEnd ∧
      (mountSlot ops f s r m).2.cursor = (if r.2.pastEnd then r.2.cursor else m + 1) ∧
      (mountSlot ops f s r m).2.dirtyTail = (r.2.dirtyTail || r.2.pastEnd) ∧
      (mountSlot ops f s r m).2.clean = false) := by
  unfold mountSlot
  by_cases hb : ops.slotBlank f s m = true
  · left
    simp [hb]
  · right
    have hb' : ops.slotBlank f s m = false := by simpa using hb
    simp only [hb', Bool.false_eq_true, if_false, true_and]
    cases parseRecord (ops.slot f s m) with
    | none => exact ⟨rfl, rfl, rfl, rfl⟩
    | some v =>
      obtain ⟨blk, lenf, seq⟩ := v
      dsimp only
      split
      · split <;> exact ⟨rfl, rfl, rfl, rfl⟩
      · split <;> exact ⟨rfl, rfl, rfl, rfl⟩

theorem mountSlot_spec {slots m : ℕ} {r : Recovery × Sector} (hm : m < slots)
    (h : Scanned ops slots f s m r) : Scanned ops slots f s (m + 1) (mountSlot ops f s r m) := by
  have hcontent : (∀ i, ((mountSlot ops f s r m).1.table i).present →
      Backed ops slots f ((mountSlot ops f s r m).1.table i)) ∧
      ScanInv (ops.shown f s) (mountSlot ops f s r m).2.cs := by
    rcases mountSlot_cases ops f s r m with ⟨-, h1, h2⟩ | ⟨-, -, h1, h2⟩ |
      ⟨blk, lenf, seq, hb, hparse, hpart, ⟨hc, h1, h2⟩ | ⟨hc, h1, h2⟩⟩ |
      ⟨blk, lenf, seq, hb, hparse, hpart, h2, ⟨-, h1⟩ | ⟨hblk, h1⟩⟩
    · rw [h1, h2]
      exact ⟨h.backed, scanInv_broken _ _⟩
    · rw [h1, h2]
      exact ⟨h.backed, scanInv_broken _ _⟩
    · rw [h1, h2]
      rw [← shown_of_not_blank hb] at hc hparse ⊢
      exact ⟨h.backed, (chainStep_sound h.run hparse hpart).1 hc⟩
    · rw [h1, h2]
      rw [← shown_of_not_blank hb] at hc hparse ⊢
      obtain ⟨parts, hchain, hend⟩ := (chainStep_sound h.run hparse hpart).2 hc
      refine ⟨adopt_forall h.backed fun e => ?_, scanInv_broken _ _⟩
      rw [Backed, if_pos (by rfl)]
      exact ⟨parts, stored_of_shown hchain (Nat.le_trans (Nat.le_of_eq hend) hm)⟩
    · rw [h1, h2]
      exact ⟨h.backed, scanInv_broken _ _⟩
    · rw [h1, h2]
      refine ⟨adopt_forall h.backed fun e => ?_, scanInv_broken _ _⟩
      rw [Backed, if_neg (by simp [plainValue, Entry.newest])]
      exact ⟨parseRecord_plain hparse hpart, hblk⟩
  obtain ⟨hbacked, hrun⟩ := hcontent
  rcases mountSlot_sector ops f s r m with ⟨hb, hpast, hcur, hdirty, hclean⟩ |
    ⟨hb, hpast, hcur, hdirty, hclean⟩
  · refine ⟨hbacked, hrun, fun hf => ?_, fun hd k hk hlt => ?_, fun hc k hlt => ?_⟩
    · rw [hpast] at hf
      cases hf
    · by_cases hkm : k = m
      · rw [hkm]
        exact hb
      · refine h.tail (hdirty ▸ hd) k ?_ (by omega)
        rw [hcur] at hk
        cases hpe : r.2.pastEnd with
        | true => simpa [hpe] using hk
        | false =>
          simp only [hpe, Bool.false_eq_true, if_false] at hk
          omega
    · by_cases hkm : k = m
      · rw [hkm]
        exact hb
      · exact h.clean (hclean ▸ hc) k (by omega)
  · refine ⟨hbacked, hrun, fun hf => ?_, fun hd k hk hlt => ?_, fun hc k hlt => ?_⟩
    · rw [hpast] at hf
      rw [hcur, if_neg (by simp [hf])]
    · rw [hdirty, Bool.or_eq_false_iff] at hd
      rw [hcur, if_neg (by simp [hd.2])] at hk
      omega
    · rw [hclean] at hc
      cases hc

theorem mountSector_spec {slots : ℕ} {r : Recovery} (hr : ∀ i, (r.table i).present →
    Backed ops slots f (r.table i)) {n : ℕ} (hn : n ≤ slots) :
    Scanned ops slots f s n (mountSector ops f s r n) := by
  induction n with
  | zero =>
    exact ⟨hr, fun h => (by cases h), fun _ => rfl, fun _ k _ hk => absurd hk (Nat.not_lt_zero k),
      fun _ k hk => absurd hk (Nat.not_lt_zero k)⟩
  | succ n ih =>
    rw [mountSector, List.range_succ, List.foldl_append]
    exact mountSlot_spec hn (ih (by omega))

/-- Whatever lies in flash, the invariant holds of the journal that a mount makes. -/
theorem mount_spec {w : World φ} (hidle : w.j.compacting = false)
    (hok : (mount ops w).1 = true) : Inv ops (mount ops w).2 := by
  unfold mount at hok ⊢
  by_cases h0 : w.j.slots = 0
  · simp [h0] at hok
  · rw [if_neg h0]
    have ha : Scanned ops w.j.slots w.flash 0 w.j.slots (mountSector ops w.flash 0 {} w.j.slots) :=
      mountSector_spec (fun i hp => by cases hp) (Nat.le_refl _)
    have hb : Scanned ops w.j.slots w.flash 1 w.j.slots
        (mountSector ops w.flash 1 (mountSector ops w.flash 0 {} w.j.slots).1 w.j.slots) :=
      mountSector_spec ha.backed (Nat.le_refl _)
    dsimp only
    generalize mountSector ops w.flash 0 {} w.j.slots = a at ha hb ⊢
    generalize mountSector ops w.flash 1 a.1 w.j.slots = b at hb ⊢
    have hsec : ∀ t : Fin 2, ∃ r, Scanned ops w.j.slots w.flash t w.j.slots
        (r, (![a.2, b.2] : Fin 2 → Sector) t) := by
      intro t
      match t with
      | 0 => exact ⟨a.1, ha⟩
      | 1 => exact ⟨b.1, hb⟩
    generalize (![a.2, b.2] : Fin 2 → Sector) = sec at hsec ⊢
    refine ⟨hb.backed, fun k hk hlt => ?_, fun hc k hlt => ?_, fun hc => ?_, hidle⟩
    · obtain ⟨r, hr⟩ := hsec (activeOf sec)
      dsimp only at hk hlt ⊢
      cases hd : (sec (activeOf sec)).dirtyTail with
      | true =>
        rw [hd, if_pos rfl] at hk
        omega
      | false =>
        rw [hd, if_neg (by decide)] at hk
        exact hr.tail hd k hk hlt
    · obtain ⟨r, hr⟩ := hsec (other (activeOf sec))
      exact hr.clean hc k hlt
    · dsimp only at hc ⊢
      rw [hc, if_pos rfl]

end BloblyEmb.Nvm
