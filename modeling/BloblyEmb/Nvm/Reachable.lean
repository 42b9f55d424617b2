import BloblyEmb.Nvm.Runs

/-!
# Room for every rewrite

The states of a journal are those after a mount of any flash and any operations, whatever of them
fails. In each of them the gate of `put` is what a rewrite needs.
-/
namespace BloblyEmb.Nvm

variable {φ : Type} {ops : FlashOps φ} {w w' : World φ}

/-- The operations of a mounted journal that change it. -/
inductive Op
  | put (block : UInt16) (data : List UInt8)
  | markClean
  | compact
  | erasePending
  | prune (keep : List UInt16)

def step (ops : FlashOps φ) (w : World φ) : Op → World φ
  | .put block data => (put ops block data w).2
  | .markClean => (markClean ops w).2
  | .compact => (compact ops w).2
  | .erasePending => (erasePending ops w).2
  | .prune keep => prune keep w

/-- A state after a mount and operations. -/
inductive Reachable (ops : FlashOps φ) : World φ → Prop
  | mount (w : World φ) (idle : w.j.compacting = false) (ok : (mount ops w).1 = true) :
      Reachable ops (mount ops w).2
  | step {w : World φ} (h : Reachable ops w) (o : Op) : Reachable ops (step ops w o)

section Sound

variable (hs : Sound ops)
include hs

theorem step_inv (hinv : Inv ops w) (o : Op) : Inv ops (step ops w o) := by
  cases o with
  | put block data => exact (put_spec hs hinv block data).1
  | markClean => exact (markClean_spec hs hinv).1
  | compact => exact (compact_spec hs hinv).1
  | erasePending => exact (erasePending_spec hs hinv).1
  | prune keep => exact (prune_spec hinv keep).1

theorem step_mounted (hinv : Inv ops w) (o : Op) :
    (step ops w o).j.mounted = w.j.mounted := by
  cases o with
  | put block data =>
    obtain ⟨-, hfail, hok⟩ := put_spec hs hinv block data
    by_cases h : (put ops block data w).1 = true
    · obtain ⟨-, i, hw⟩ := hok h
      exact hw.mounted
    · exact (hfail (by simpa using h)).mounted
  | markClean => exact (markClean_spec hs hinv).2.mounted
  | compact => exact (compact_spec hs hinv).2.mounted
  | erasePending => exact (erasePending_spec hs hinv).2.mounted
  | prune keep =>
    change (prune keep w).j.mounted = w.j.mounted
    unfold prune
    split <;> rfl

/-- No operation breaks the gate. -/
theorem step_gate (hinv : Inv ops w) (hg : Gate w.j) (o : Op) : Gate (step ops w o).j := by
  cases o with
  | put block data =>
    obtain ⟨-, hfail, hok⟩ := put_spec hs hinv block data
    by_cases h : (put ops block data w).1 = true
    · exact (hok h).1
    · exact (hfail (by simpa using h)).gate hg
  | markClean => exact (markClean_spec hs hinv).2.gate hg
  | compact => exact (compact_spec hs hinv).2.gate hg
  | erasePending => exact (erasePending_spec hs hinv).2.gate hg
  | prune keep =>
    obtain ⟨-, hslots, hrows⟩ := prune_spec hinv keep
    refine gate_congr hslots (fun i hp => ?_) hg
    have hrow := hrows i hp
    change ((prune keep w).j.table i).present = true at hp
    change (w.j.table i).present = true ∧ ((prune keep w).j.table i).records = _
    rw [hrow] at hp ⊢
    exact ⟨hp, rfl⟩

theorem reachable_inv (h : Reachable ops w) : Inv ops w ∧ w.j.mounted = true := by
  induction h with
  | mount w idle ok =>
    refine ⟨mount_spec idle ok, ?_⟩
    unfold mount at ok ⊢
    by_cases h0 : w.j.slots = 0
    · simp [h0] at ok
    · rw [if_neg h0]
  | step h o ih => exact ⟨step_inv hs ih.1 o, (step_mounted hs ih.1 o).trans ih.2⟩

/-- A compaction into an erased partner leaves room for one more copy of any value. -/
theorem compact_fits (hinv : Inv ops w) (hg : Gate w.j) (hr : Ready ops)
    (hm : w.j.mounted = true) (hp : w.j.partnerClean = true) (ho : w.j.poolOverflow = false)
    (hseq : w.j.maxSeq.toNat + maxBlocks + 1 < seqCeiling.toNat) {i : Fin maxBlocks}
    (hi : (w.j.table i).present = true) : (compact ops w).1 = true ∧
      (compact ops w).2.j.cursor + (w.j.table i).records ≤ (compact ops w).2.j.slots := by
  have hworst := records_le_worst hi
  unfold Gate at hg
  have heq : compact ops w = compactInto ops w := by
    unfold compact
    rw [if_neg (by simp [hm, hinv.idle]), if_neg (by simp [ho]), if_neg (by omega), if_pos hp]
  obtain ⟨-, hsame, hcur, -, hready⟩ := compactInto_spec hs hinv (hinv.partner hp)
  obtain ⟨hok, -⟩ := hready hr (by omega) (by omega)
  rw [heq]
  have := hcur hok
  have := hsame.slots
  exact ⟨hok, by omega⟩

end Sound

/-- **Rewrite headroom.** An accepted put leaves the gate, and no operation breaks it. While it holds
and the partner is erased, the pool has not overflowed, sequence numbers are left and flash operations
succeed, every block of the journal can be written again at its length: the compaction that this may
need succeeds and leaves room for the new records. -/
theorem rewrite_headroom (hs : Sound ops) (hw : Reachable ops w) :
    (∀ block data, (put ops block data w).1 = true → Gate (put ops block data w).2.j) ∧
      (Gate w.j → ∀ o, Gate (step ops w o).j) ∧
      (Gate w.j → Ready ops → w.j.partnerClean = true → w.j.poolOverflow = false →
        w.j.maxSeq.toNat + maxBlocks + 1 < seqCeiling.toNat →
        ∀ block i, find w.j.table block = some i →
          ((compact ops w).1 = true ∧
            (compact ops w).2.j.cursor + recordsFor (w.j.table i).len ≤
              (compact ops w).2.j.slots) ∧
          ∀ data, data ≠ [] → data.length = (w.j.table i).len →
            (put ops block data w).1 = true) := by
  obtain ⟨hinv, hm⟩ := reachable_inv hs hw
  refine ⟨fun block data h => ((put_spec hs hinv block data).2.2 h).1, fun hg => step_gate hs hinv hg,
    fun hg hr hp ho hseq block i hf => ⟨?_, fun data hne hlen => ?_⟩⟩
  · have hi := (find_some hf).1
    rw [← (hinv.backed i hi).records]
    exact compact_fits hs hinv hg hr hm hp ho hseq hi
  · exact rewrite_spec hs hinv hg hr hm hp ho hseq hf hlen hne

/-! ## A flash in memory -/

/-- A flash whose slots are erased or hold a record, and are programmed once. -/
def memFlash : FlashOps (Fin 2 → ℕ → Option Ptr) where
  read f s k := some ((f s k).getD fun _ => 0xFF)
  program f s k p :=
    if (f s k).isNone then (true, Function.update f s (Function.update (f s) k (some p)))
    else (false, f)
  erase f s := (true, Function.update f s fun _ => none)
  blank := some fun f s k => (f s k).isNone

theorem memFlash_program (f : Fin 2 → ℕ → Option Ptr) (s : Fin 2) (k : ℕ) (p : Ptr) :
    (f s k = none ∧ memFlash.program f s k p =
      (true, Function.update f s (Function.update (f s) k (some p)))) ∨
    (f s k ≠ none ∧ memFlash.program f s k p = (false, f)) := by
  cases h : f s k with
  | none => exact .inl ⟨rfl, by simp [memFlash, h]⟩
  | some q => exact .inr ⟨by simp, by simp [memFlash, h]⟩

theorem memFlash_sound : Sound memFlash := by
  refine ⟨fun f s k p s' k' hne => ?_, fun f s k p hok => ?_, fun f s k p q hread hsame hp => ?_,
    fun f s s' k hne => ?_, fun f s k _ => ?_⟩
  · rcases memFlash_program f s k p with ⟨-, heq⟩ | ⟨-, heq⟩
    · have hval : (Function.update f s (Function.update (f s) k (some p))) s' k' = f s' k' := by
        by_cases hss : s' = s
        · subst hss
          rw [Function.update_self, Function.update_of_ne (hne.resolve_left fun h => h rfl)]
        · rw [Function.update_of_ne hss]
      rw [heq]
      simp only [memFlash, FlashOps.slotBlank, hval, and_self]
    · rw [heq]
      exact ⟨rfl, rfl⟩
  · rcases memFlash_program f s k p with ⟨-, heq⟩ | ⟨-, heq⟩
    · exact ⟨p, by rw [heq]; simp [memFlash], rfl⟩
    · rw [heq] at hok
      cases hok
  · rcases memFlash_program f s k p with ⟨-, heq⟩ | ⟨hne, heq⟩
    · rw [heq]
      simp [memFlash, FlashOps.slotBlank]
    · rw [heq]
      change (f s k).isNone = false
      cases h : f s k with
      | none => exact absurd h hne
      | some _ => rfl
  · simp [memFlash, FlashOps.slotBlank, Function.update_of_ne hne]
  · simp [memFlash, FlashOps.slotBlank]

theorem memFlash_ready : Ready memFlash := by
  intro f s k p hb
  rcases memFlash_program f s k p with ⟨-, heq⟩ | ⟨hne, -⟩
  · rw [heq]
  · have hfree : (f s k).isNone = true := hb
    exact absurd (Option.isNone_iff_eq_none.mp hfree) hne

/-- A journal of four slots over a flash that holds one byte of block 5 under sequence number 1. -/
def oneByte : World (Fin 2 → ℕ → Option Ptr) where
  j := { slots := 4 }
  flash := fun s k => if s = 0 ∧ k = 0 then some (Ptr.of [5, 0, 1, 0, 1, 0, 0, 0, 7, 0, 0, 0, 0, 0, 0,
    0, 0, 0, 0, 0, 0, 0, 0, 0, 0, 0, 0, 0, 163, 27, 110, 0]) else none

theorem rewrite_headroom_oneByte : (put memFlash 5 [8] (mount memFlash oneByte).2).1 = true := by
  have hw : Reachable memFlash (mount memFlash oneByte).2 :=
    .mount oneByte rfl (by decide +kernel)
  refine ((rewrite_headroom memFlash_sound hw).2.2 ?_ memFlash_ready (by decide +kernel)
    (by decide +kernel) (by decide +kernel) 5 ⟨0, by decide⟩ (by decide +kernel)).2 [8] (by decide)
    (by decide +kernel)
  unfold Gate
  decide +kernel

/-- The same byte under the sequence number at which the journal freezes. -/
def frozen : World (Fin 2 → ℕ → Option Ptr) where
  j := { slots := 4 }
  flash := fun s k => if s = 0 ∧ k = 0 then some (Ptr.of [5, 0, 1, 0, 0, 255, 255, 255, 7, 0, 0, 0, 0,
    0, 0, 0, 0, 0, 0, 0, 0, 0, 0, 0, 0, 0, 0, 0, 10, 206, 184, 212]) else none

/-- The gate and an erased partner are not enough: a frozen journal takes no rewrite. -/
theorem rewrite_refused_frozen : Sound memFlash ∧ Ready memFlash ∧
    Reachable memFlash (mount memFlash frozen).2 ∧ Gate (mount memFlash frozen).2.j ∧
      (mount memFlash frozen).2.j.partnerClean = true ∧
      (find (mount memFlash frozen).2.j.table 5).isSome = true ∧
      (∀ i, find (mount memFlash frozen).2.j.table 5 = some i →
        ((mount memFlash frozen).2.j.table i).len = 1) ∧
      (put memFlash 5 [8] (mount memFlash frozen).2).1 = false := by
  refine ⟨memFlash_sound, memFlash_ready, .mount frozen rfl (by decide +kernel), ?_,
    by decide +kernel, by decide +kernel, fun i hi => ?_, by decide +kernel⟩
  · unfold Gate
    decide +kernel
  · have h0 : find (mount memFlash frozen).2.j.table 5 = some ⟨0, by decide⟩ := by
      decide +kernel
    obtain rfl := Option.some.inj (h0.symm.trans hi)
    decide +kernel

end BloblyEmb.Nvm
