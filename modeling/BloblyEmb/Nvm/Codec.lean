import BloblyEmb.Nvm.Adoption
import BloblyEmb.Nvm.Reachable

/-!
# Values that are read back

What an accepted put has written is what `get` returns, after any operations that leave the block
alone and after a mount of the flash, and a mount adopts nothing but chains.
-/
namespace BloblyEmb.Nvm

variable {φ : Type} {ops : FlashOps φ} {w w' : World φ}

/-! ## Sequence numbers -/

theorem adopt_maxSeq (r : Recovery) (id : UInt16) (q : UInt32) (value : Entry → Entry) :
    (r.adopt id q value).maxSeq = r.maxSeq := by
  rcases adopt_cases r id q value with
    ⟨-, heq⟩ | ⟨k, -, -, -, heq⟩ | ⟨k, -, -, heq⟩ <;> rw [heq]

theorem note_maxSeq (r : Recovery) (blk lenf : UInt16) (q : UInt32) :
    r.maxSeq.toNat ≤ (r.note blk lenf q).maxSeq.toNat ∧
      q.toNat ≤ (r.note blk lenf q).maxSeq.toNat := by
  unfold Recovery.note
  dsimp only
  by_cases h : r.maxSeq < q
  · rw [if_pos h]
    have := UInt32.lt_iff_toNat_lt.mp h
    omega
  · rw [if_neg h]
    have : ¬r.maxSeq.toNat < q.toNat := fun hlt => h (UInt32.lt_iff_toNat_lt.mpr hlt)
    omega

/-- A slot raises the last sequence number to its own. -/
theorem mountSlot_maxSeq (ops : FlashOps φ) (f : φ) (s : Fin 2) (m : ℕ) (r : Recovery × Sector) :
    r.1.maxSeq.toNat ≤ (mountSlot ops f s r m).1.maxSeq.toNat ∧
      (ops.slotBlank f s m = false → ∀ v, parseRecord (ops.slot f s m) = some v →
        v.2.2.toNat ≤ (mountSlot ops f s r m).1.maxSeq.toNat) := by
  rcases mountSlot_effect ops f s r m with ⟨h1, hnone⟩ | ⟨blk, lenf, q, -, hp, h1⟩
  · rw [h1]
    refine ⟨Nat.le_refl _, fun hb v hv => ?_⟩
    rcases hnone with hnone | hnone
    · rw [hb] at hnone
      cases hnone
    · rw [hnone] at hv
      cases hv
  · obtain ⟨hle, hq⟩ := note_maxSeq r.1 blk lenf q
    have heq : (mountSlot ops f s r m).1.maxSeq = (r.1.note blk lenf q).maxSeq := by
      rcases h1 with h1 | ⟨value, h1⟩
      · rw [h1]
      · rw [h1, adopt_maxSeq]
    rw [heq, hp]
    exact ⟨hle, fun _ v hv => by rw [← Option.some.inj hv]; exact hq⟩

theorem mountSector_maxSeq (ops : FlashOps φ) (f : φ) (s : Fin 2) (r : Recovery) (n : ℕ) :
    r.maxSeq.toNat ≤ (mountSector ops f s r n).1.maxSeq.toNat ∧
      ∀ k < n, ops.slotBlank f s k = false → ∀ v, parseRecord (ops.slot f s k) = some v →
        v.2.2.toNat ≤ (mountSector ops f s r n).1.maxSeq.toNat := by
  induction n with
  | zero => exact ⟨Nat.le_refl _, fun k hk => absurd hk (Nat.not_lt_zero k)⟩
  | succ n ih =>
    obtain ⟨ih1, ih2⟩ := ih
    rw [mountSector_succ]
    obtain ⟨h1, h2⟩ := mountSlot_maxSeq ops f s n (mountSector ops f s r n)
    refine ⟨Nat.le_trans ih1 h1, fun k hk hb v hv => ?_⟩
    by_cases hkn : k = n
    · subst hkn
      exact h2 hb v hv
    · exact Nat.le_trans (ih2 k (by omega) hb v hv) h1

/-- A mount learns the last sequence number. -/
theorem mount_bounded (hok : (mount ops w).1 = true) : Bounded ops (mount ops w).2 := by
  unfold mount at hok ⊢
  by_cases h0 : w.j.slots = 0
  · simp [h0] at hok
  · rw [if_neg h0]
    intro s k hk hb v hv
    have ha := mountSector_maxSeq ops w.flash 0 {} w.j.slots
    have hb' := mountSector_maxSeq ops w.flash 1 (mountSector ops w.flash 0 {} w.j.slots).1
      w.j.slots
    have hsector : ∀ s : Fin 2, s = 0 ∨ s = 1 := by decide
    rcases hsector s with rfl | rfl
    · exact Nat.le_trans (ha.2 k hk hb v hv) hb'.1
    · exact hb'.2 k hk hb v hv

theorem step_bounded (hs : Sound ops) (ht : Torn ops) (hinv : Inv ops w) (hb : Bounded ops w)
    (o : Op) : Bounded ops (step ops w o) := by
  cases o with
  | put block data =>
    obtain ⟨-, hfail, hok⟩ := put_spec hs hinv block data
    by_cases h : (put ops block data w).1 = true
    · obtain ⟨-, i, hw⟩ := hok h
      exact hw.bounded ht hb
    · exact (hfail (by simpa using h)).bounded ht hb
  | markClean => exact (markClean_spec hs hinv).2.bounded ht hb
  | compact => exact (compact_spec hs hinv).2.bounded ht hb
  | erasePending => exact (erasePending_spec hs hinv).2.bounded ht hb
  | prune keep =>
    change Bounded ops (prune keep w)
    unfold prune
    split
    · exact hb
    · exact hb

theorem reachable_bounded (hs : Sound ops) (ht : Torn ops) (h : Reachable ops w) :
    Bounded ops w := by
  induction h with
  | mount w idle ok => exact mount_bounded ok
  | step h o ih => exact step_bounded hs ht (reachable_inv hs h).1 ih o

/-! ## Values over runs -/

/-- The journal holds `data` for `block`. -/
def Holds (ops : FlashOps φ) (w : World φ) (block : UInt16) (data : List UInt8) : Prop :=
  w.j.mounted = true ∧ ∃ i, find w.j.table block = some i ∧ Value ops w i block data

/-- `get` reads back the value, cut to the capacity. -/
theorem Holds.get {block : UInt16} {data : List UInt8} (h : Holds ops w block data) (cap : ℕ) :
    get ops block cap w = data.take cap := by
  obtain ⟨hm, i, hf, hv⟩ := h
  have htake : data.take (min data.length cap) = data.take cap := by
    rw [← List.take_take]
    refine List.take_of_length_le ?_
    rw [List.length_take]
    omega
  unfold Nvm.get
  rw [if_neg (by simp [hm]), hf]
  dsimp only
  by_cases hc : (w.j.table i).chained = true
  · rw [if_neg (by simp [hc])]
    obtain ⟨parts, hst, hdata⟩ := hv.stored hc
    rw [← hst.chain.count, hst.chain.readChain (fun k hk => ?_) (Nat.min_le_left _ _), hv.len, hdata,
      Option.getD_some, htake]
    obtain ⟨⟨lenf, hparse, -⟩, -⟩ := hst.chain.part k hk
    exact ⟨_, read_of_parse (by rw [hparse]; simp), fun _ _ => rfl⟩
  · rw [if_pos (by simp [hc]), hv.plain (by simpa using hc), hv.len, htake]

/-- An operation that leaves a block alone: no put of it, and no prune without it. -/
def Op.spares (block : UInt16) : Op → Prop
  | .put b _ => b ≠ block
  | .prune keep => block ∈ keep
  | _ => True

theorem SameValues.holds {block : UInt16} {data : List UInt8} (hsame : SameValues ops w w')
    (h : Holds ops w block data) : Holds ops w' block data := by
  obtain ⟨hm, i, hf, hv⟩ := h
  refine ⟨hsame.mounted.trans hm, i, ?_, hv.same hsame⟩
  rw [← hf]
  exact find_congr block fun j => ⟨(hsame.row j).1, (hsame.row j).2.1⟩

theorem Written.holds {block : UInt16} {data : List UInt8} {i : Fin maxBlocks}
    (h : Written ops w w' block data i) (hm : w.j.mounted = true) : Holds ops w' block data :=
  ⟨h.mounted.trans hm, i, find_written (fun j hj => ⟨(h.others j hj).1.1, (h.others j hj).1.2.2⟩) h.row
    h.value.present h.value.id, h.value⟩

theorem step_holds (hs : Sound ops) (hinv : Inv ops w) {block : UInt16} {data : List UInt8}
    (h : Holds ops w block data) {o : Op} (ho : o.spares block) :
    Holds ops (step ops w o) block data := by
  cases o with
  | put block' data' =>
    obtain ⟨-, hfail, hok⟩ := put_spec hs hinv block' data'
    by_cases hput : (put ops block' data' w).1 = true
    · obtain ⟨-, k, hw⟩ := hok hput
      obtain ⟨hm, i, hf, hv⟩ := h
      have hik : i ≠ k := by
        rintro rfl
        rcases slotFor_some hw.row with hf' | ⟨-, hfree⟩
        · exact ho ((find_some hf').2.symm.trans hv.id)
        · rw [hv.present] at hfree
          cases hfree
      refine ⟨hw.mounted.trans hm, i, ?_, (hw.others i hik).2 _ _ hv⟩
      exact (find_other (fun j hj => ⟨(hw.others j hj).1.1, (hw.others j hj).1.2.2⟩) hw.row ho
        hw.value.id).trans hf
    · exact (hfail (by simpa using hput)).holds h
  | markClean => exact (markClean_spec hs hinv).2.holds h
  | compact => exact (compact_spec hs hinv).2.holds h
  | erasePending => exact (erasePending_spec hs hinv).2.holds h
  | prune keep =>
    obtain ⟨hm, i, hf, hv⟩ := h
    change Holds ops (prune keep w) block data
    unfold prune
    rw [if_neg (by simp [hm])]
    have hrow : (if (w.j.table i).present ∧ (w.j.table i).id ∉ keep then {} else w.j.table i : Entry) =
        w.j.table i := by
      rw [if_neg]
      rintro ⟨-, hmem⟩
      rw [hv.id] at hmem
      exact hmem ho
    refine ⟨hm, i, ?_, ?_⟩
    · rw [← hf]
      refine find_congr' fun k => ?_
      dsimp only
      split
      · rename_i hk
        have hne : (w.j.table k).id ≠ block := fun heq => hk.2 (heq ▸ ho)
        simp [hne]
      · rfl
    · refine ⟨?_, ?_, ?_, ?_, ?_, ?_⟩ <;> dsimp only <;> rw [hrow]
      · exact hv.present
      · exact hv.id
      · exact hv.len
      · exact hv.chained
      · exact hv.plain
      · exact hv.stored

def run (ops : FlashOps φ) (w : World φ) (os : List Op) : World φ := os.foldl (step ops) w

theorem run_holds (hs : Sound ops) (hw : Reachable ops w) {block : UInt16} {data : List UInt8}
    (h : Holds ops w block data) (os : List Op) (ho : ∀ o ∈ os, o.spares block) :
    Holds ops (run ops w os) block data := by
  induction os generalizing w with
  | nil => exact h
  | cons o os ih =>
    exact ih (hw.step o) (step_holds hs (reachable_inv hs hw).1 h (ho o List.mem_cons_self))
      fun o' ho' => ho o' (List.mem_cons_of_mem _ ho')

/-! ## Mounting what was put -/

theorem mount_flash (ops : FlashOps φ) (w : World φ) :
    (mount ops w).2.flash = w.flash ∧ (mount ops w).2.j.slots = w.j.slots := by
  unfold mount
  by_cases h0 : w.j.slots = 0
  · rw [if_pos h0]
    exact ⟨rfl, rfl⟩
  · rw [if_neg h0]
    exact ⟨rfl, rfl⟩

theorem mount_mounted (h : (mount ops w).1 = true) : (mount ops w).2.j.mounted = true := by
  unfold mount at h ⊢
  by_cases h0 : w.j.slots = 0
  · simp [h0] at h
  · rw [if_neg h0]

/-- A chain that a mount installs is the value of its block. -/
theorem holds_of_held {e : Entry} {parts : List (List UInt8)} {data : List UInt8}
    (hst : Stored ops w.j.slots w.flash e parts) (hdata : parts.flatten = data)
    (hok : (mount ops w).1 = true) (h : Held e (mount ops w).2.j.table) :
    Holds ops (mount ops w).2 e.id data := by
  obtain ⟨i, hf, hc, hsec, hlen, hseq, href⟩ := h
  obtain ⟨hp, hid⟩ := find_some hf
  obtain ⟨hflash, hslots⟩ := mount_flash ops w
  have htotal : e.len = data.length := by rw [← hdata, hst.chain.length]
  refine ⟨mount_mounted hok, i, hf, hp, hid, hlen.trans htotal, ?_, fun h' => ?_, fun _ =>
    ⟨parts, ⟨?_, ?_, ?_⟩, hdata⟩⟩
  · rw [hc, ← htotal]
    exact (decide_eq_true hst.chain.range.1).symm
  · rw [hc] at h'
    cases h'
  · rw [hflash, hsec, href, hid, hseq, hlen]
    exact hst.chain
  · rw [href, hslots]
    exact hst.range
  · rw [hflash, hsec, href]
    exact hst.blank

theorem memFlash_torn : Torn memFlash := by
  refine ⟨fun f s k p hb v hv => ?_, fun f s k hb => ?_⟩
  · rcases memFlash_program f s k p with ⟨-, heq⟩ | ⟨hne, -⟩
    · rw [heq] at hv
      simpa [memFlash, FlashOps.slot] using hv
    · have hfree : (f s k).isNone = true := hb
      exact absurd (Option.isNone_iff_eq_none.mp hfree) hne
  · simp [memFlash, FlashOps.slotBlank] at hb

/-- A journal of eight slots over an erased flash. -/
def erased : World (Fin 2 → ℕ → Option Ptr) where
  j := { slots := 8 }
  flash := fun _ _ => none

/-- A run of 40 bytes under block 5, whose first part carries 5 of them. -/
def uneven : World (Fin 2 → ℕ → Option Ptr) where
  j := { slots := 4 }
  flash := fun s k => if s = 0 then ([
    [5, 0, 7, 128, 1, 0, 0, 0, 40, 0, 0, 1, 2, 3, 4, 0, 0, 0, 0, 0, 0, 0, 0, 0, 0, 0, 0, 0, 201, 220,
      46, 252],
    [5, 0, 20, 132, 1, 0, 0, 0, 5, 6, 7, 8, 9, 10, 11, 12, 13, 14, 15, 16, 17, 18, 19, 20, 21, 22, 23,
      24, 255, 104, 27, 166],
    [5, 0, 19, 136, 1, 0, 0, 0, 25, 26, 27, 28, 29, 30, 31, 32, 33, 34, 35, 36, 37, 38, 39, 60, 46,
      166, 13, 0, 182, 194, 1, 80]] : List (List UInt8))[k]?.map Ptr.of else none

end BloblyEmb.Nvm
