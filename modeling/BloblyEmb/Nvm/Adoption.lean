import BloblyEmb.Nvm.Mount

/-!
# Adoption of a chain

A mount that finds a chain whose sequence number is the newest of its block installs it, unless the
pool overflows.
-/
namespace BloblyEmb.Nvm

variable {φ : Type} {ops : FlashOps φ} {f : φ}

/-- Every value of the block is older. -/
def Low (e : Entry) (t : Fin maxBlocks → Entry) : Prop :=
  ∀ i, (t i).present = true → (t i).id = e.id → (t i).seq < e.seq

/-- The chain is the value of its block. -/
def Held (e : Entry) (t : Fin maxBlocks → Entry) : Prop :=
  ∃ i, find t e.id = some i ∧ (t i).chained = true ∧ (t i).sector = e.sector ∧
    (t i).len = e.len ∧ (t i).seq = e.seq ∧ (t i).refOff = e.refOff

/-! ## Tables -/

section Adopt

variable {e : Entry} {r : Recovery} {id : UInt16} {q : UInt32} {value : Entry → Entry}

theorem adopt_low (h : Low e r.table) (hq : id = e.id → q < e.seq) :
    Low e (r.adopt id q value).table :=
  fun i hp hid => adopt_forall (P := fun x => x.id = e.id → x.seq < e.seq) h (fun _ h => hq h) i hp hid

theorem adopt_held (h : Held e r.table) (hq : id = e.id → q < e.seq) :
    Held e (r.adopt id q value).table := by
  obtain ⟨i, hf, hrest⟩ := h
  rcases adopt_cases r id q value with
    ⟨-, heq⟩ | ⟨k, -, -, -, heq⟩ | ⟨k, hrow, hnew, heq⟩
  · rw [heq]
    exact ⟨i, hf, hrest⟩
  · rw [heq]
    exact ⟨i, hf, hrest⟩
  · rw [heq]
    by_cases hid : id = e.id
    · subst hid
      have hki : i = k := Option.some.inj ((slotFor_of_find hf).symm.trans hrow)
      subst hki
      have h1 := hnew (find_some hf).1
      have h2 := hq rfl
      rw [hrest.2.2.2.1, UInt32.lt_iff_toNat_lt] at h1
      rw [UInt32.lt_iff_toNat_lt] at h2
      omega
    · refine ⟨i, (find_other (fun j hj => by simp [Function.update_of_ne hj]) hrow hid
        (by simp [Entry.newest])).trans hf, ?_⟩
      have hik : i ≠ k := by
        rintro rfl
        rcases slotFor_some hrow with hf' | ⟨-, hfree⟩
        · exact hid ((find_some hf').2.symm.trans (find_some hf).2)
        · rw [(find_some hf).1] at hfree
          cases hfree
      simp only [Function.update_of_ne hik]
      exact hrest

theorem adopt_new (h : Low e r.table) {cs : ChainScan} (htotal : cs.total = e.len)
    (hstart : cs.start = e.refOff)
    (hroom : (r.adopt e.id e.seq (chainValue e.sector cs)).poolOverflow = false) :
    Held e (r.adopt e.id e.seq (chainValue e.sector cs)).table := by
  rcases adopt_cases r e.id e.seq (chainValue e.sector cs) with
    ⟨-, heq⟩ | ⟨k, hrow, hp, hold, heq⟩ | ⟨k, hrow, -, heq⟩
  · rw [heq] at hroom
    cases hroom
  · rcases slotFor_some hrow with hf | ⟨-, hfree⟩
    · exact absurd (h k hp (find_some hf).2) hold
    · rw [hp] at hfree
      cases hfree
  · rw [heq]
    refine ⟨k, find_written (fun j hj => by simp [Function.update_of_ne hj]) hrow
      (by simp [Entry.newest]) (by simp [Entry.newest]), ?_⟩
    simp [Entry.newest, chainValue, htotal, hstart]

theorem adopt_overflow (h : r.poolOverflow = true) : (r.adopt id q value).poolOverflow = true := by
  rcases adopt_cases r id q value with
    ⟨-, heq⟩ | ⟨k, -, -, -, heq⟩ | ⟨k, -, -, heq⟩
  · rw [heq]
  · rw [heq]
    exact h
  · rw [heq]
    exact h

end Adopt

/-! ## Slots -/

/-- A run that is complete has the block and the sequence number of its last part. -/
theorem chainStep_id {cs : ChainScan} {blk lenf : UInt16} {q : UInt32} {off : ℕ} {p : Ptr}
    (h : (chainStep cs blk lenf q off p).1 = true) :
    (chainStep cs blk lenf q off p).2.id = blk ∧ (chainStep cs blk lenf q off p).2.seq = q := by
  unfold chainStep at h ⊢
  split at h
  · cases h
  · rename_i hgood
    rw [if_neg hgood]
    cases hopen : chainOpen cs blk lenf q off p with
    | none =>
      rw [hopen] at h
      cases h
    | some cs' =>
      rw [hopen] at h
      have hids : cs'.id = blk ∧ cs'.seq = q := by
        unfold chainOpen at hopen
        dsimp only at hopen
        split at hopen
        · split at hopen
          · cases hopen
          · split at hopen
            · cases hopen
            · obtain rfl := Option.some.inj hopen
              exact ⟨rfl, rfl⟩
        · split at hopen
          · cases hopen
          · rename_i hc
            push Not at hc
            obtain rfl := Option.some.inj hopen
            exact ⟨hc.2.1.symm, hc.2.2.1.symm⟩
      dsimp only at h ⊢
      unfold chainData at h ⊢
      dsimp only at h ⊢
      split
      · split
        · exact hids
        · split <;> exact hids
      · split <;> exact hids

variable {s : Fin 2} {r : Recovery × Sector} {m : ℕ}

/-- What a slot does to what the mount has gathered: nothing, or its record is noted and may be
adopted, under the block and the sequence number that it tells. -/
theorem mountSlot_effect (ops : FlashOps φ) (f : φ) (s : Fin 2) (r : Recovery × Sector) (m : ℕ) :
    ((mountSlot ops f s r m).1 = r.1 ∧
      (ops.slotBlank f s m = true ∨ parseRecord (ops.slot f s m) = none)) ∨
    ∃ blk lenf q, ops.slotBlank f s m = false ∧
      parseRecord (ops.slot f s m) = some (blk, lenf, q) ∧
      ((mountSlot ops f s r m).1 = r.1.note blk lenf q ∨
        ∃ value, (mountSlot ops f s r m).1 = (r.1.note blk lenf q).adopt blk q value) := by
  rcases mountSlot_cases ops f s r m with ⟨hb, h1, -⟩ | ⟨-, hp, h1, -⟩ |
    ⟨blk, lenf, q, hb, hp, -, ⟨-, h1, -⟩ | ⟨hc, h1, -⟩⟩ |
    ⟨blk, lenf, q, hb, hp, -, -, ⟨-, h1⟩ | ⟨-, h1⟩⟩
  · exact .inl ⟨h1, .inl hb⟩
  · exact .inl ⟨h1, .inr hp⟩
  · exact .inr ⟨blk, lenf, q, hb, hp, .inl h1⟩
  · obtain ⟨hid, hseq⟩ := chainStep_id hc
    rw [hid, hseq] at h1
    exact .inr ⟨blk, lenf, q, hb, hp, .inr ⟨_, h1⟩⟩
  · exact .inr ⟨blk, lenf, q, hb, hp, .inl h1⟩
  · exact .inr ⟨blk, lenf, q, hb, hp, .inr ⟨_, h1⟩⟩

theorem mountSlot_overflow (h : r.1.poolOverflow = true) :
    (mountSlot ops f s r m).1.poolOverflow = true := by
  rcases mountSlot_effect ops f s r m with ⟨h1, -⟩ | ⟨blk, lenf, q, -, -, h1 | ⟨value, h1⟩⟩
  · rw [h1]
    exact h
  · rw [h1]
    exact h
  · rw [h1]
    exact adopt_overflow h

/-- What survives the adoption of older values survives a slot that holds nothing newer. -/
theorem mountSlot_keeps {e : Entry} {P : (Fin maxBlocks → Entry) → Prop}
    (hadopt : ∀ (r : Recovery) id q value, P r.table → (id = e.id → q < e.seq) →
      P (r.adopt id q value).table) (h : P r.1.table)
    (hold : ops.slotBlank f s m = false → ∀ lenf q,
      parseRecord (ops.slot f s m) = some (e.id, lenf, q) → q < e.seq) :
    P (mountSlot ops f s r m).1.table := by
  rcases mountSlot_effect ops f s r m with ⟨h1, -⟩ | ⟨blk, lenf, q, hb, hparse, h1 | ⟨value, h1⟩⟩
  · rw [h1]
    exact h
  · rw [h1]
    exact h
  · rw [h1]
    refine hadopt _ _ _ _ h fun hblk => ?_
    exact hold hb lenf q (by rw [hparse, hblk])

/-! ## Sectors -/

section Latest

variable {slots : ℕ} {e : Entry} {parts : List (List UInt8)}

theorem mountSector_succ (r : Recovery) (n : ℕ) :
    mountSector ops f s r (n + 1) = mountSlot ops f s (mountSector ops f s r n) n := by
  rw [mountSector, List.range_succ, List.foldl_append]
  rfl

/-- Slots outside the chain hold nothing newer. -/
theorem Latest.outside (h : Latest ops slots f e parts) {k : ℕ} (hk : k < slots)
    (hout : s ≠ e.sector ∨ k < e.refOff ∨ e.refOff + parts.length ≤ k)
    (hb : ops.slotBlank f s k = false) (lenf : UInt16) (q : UInt32)
    (hparse : parseRecord (ops.slot f s k) = some (e.id, lenf, q)) : q < e.seq := by
  refine (h.newest s k hk hb lenf q hparse).resolve_left ?_
  rintro ⟨rfl, h1, h2⟩
  rcases hout with h' | h' | h'
  · exact h' rfl
  · omega
  · omega

theorem mountSector_overflow {r : Recovery} {n n' : ℕ} (hn : n ≤ n')
    (h : (mountSector ops f s r n').1.poolOverflow = false) :
    (mountSector ops f s r n).1.poolOverflow = false := by
  induction n' with
  | zero =>
    rw [Nat.le_zero.mp hn]
    exact h
  | succ n' ih =>
    by_cases hle : n ≤ n'
    · refine ih hle ?_
      by_contra hcon
      rw [mountSector_succ, mountSlot_overflow (by simpa using hcon)] at h
      cases h
    · rw [show n = n' + 1 by omega]
      exact h

/-- What survives the adoption of older values survives the other sector. -/
theorem mountSector_keeps (h : Latest ops slots f e parts) (hs : s ≠ e.sector)
    {P : (Fin maxBlocks → Entry) → Prop}
    (hadopt : ∀ (r : Recovery) id q value, P r.table → (id = e.id → q < e.seq) →
      P (r.adopt id q value).table) {r : Recovery} (hr : P r.table) {n : ℕ} (hn : n ≤ slots) :
    P (mountSector ops f s r n).1.table := by
  induction n with
  | zero => exact hr
  | succ n ih =>
    rw [mountSector_succ]
    exact mountSlot_keeps hadopt (ih (by omega)) (h.outside (by omega) (.inl hs))

/-- The slots before the chain. -/
theorem mountSector_before (h : Latest ops slots f e parts) {r : Recovery} (hr : Low e r.table)
    {n : ℕ} (hn : n ≤ e.refOff) : Low e (mountSector ops f e.sector r n).1.table := by
  have hrange := h.stored.range
  induction n with
  | zero => exact hr
  | succ n ih =>
    rw [mountSector_succ]
    exact mountSlot_keeps (fun _ _ _ _ => adopt_low) (ih (by omega))
      (h.outside (by omega) (.inr (.inl (by omega))))

/-- The slots of the chain: the validator follows it to its end, where it is installed. -/
theorem mountSector_chain (h : Latest ops slots f e parts) {r : Recovery} (hr : Low e r.table)
    (j : ℕ) (hj : j ≤ parts.length)
    (hroom : (mountSector ops f e.sector r (e.refOff + j)).1.poolOverflow = false) :
    (j < parts.length → Low e (mountSector ops f e.sector r (e.refOff + j)).1.table ∧
      (j = 0 ∨ (mountSector ops f e.sector r (e.refOff + j)).2.cs =
        followed e.refOff e.id e.seq e.len parts j)) ∧
    (j = parts.length → Held e (mountSector ops f e.sector r (e.refOff + j)).1.table) := by
  have hcount : 2 ≤ parts.length := by
    rw [h.stored.chain.count]
    exact two_le_chainParts h.stored.chain.range.1
  induction j with
  | zero => exact ⟨fun _ => ⟨mountSector_before h hr (Nat.le_refl _), .inl rfl⟩, fun h0 => by omega⟩
  | succ j ih =>
    have hlt : j < parts.length := hj
    obtain ⟨hlow, hcs⟩ := (ih (by omega) (mountSector_overflow (by omega) hroom)).1 hlt
    rw [← Nat.add_assoc] at hroom ⊢
    rw [mountSector_succ] at hroom ⊢
    generalize mountSector ops f e.sector r (e.refOff + j) = r' at hlow hcs hroom ⊢
    obtain ⟨lenf, hparse, hpart, hstep⟩ := h.stored.chain.chainStep hlt
    have hstep := hstep r'.2.cs hcs
    rcases mountSlot_cases ops f e.sector r' (e.refOff + j) with ⟨hb, -, -⟩ | ⟨-, hp, -, -⟩ |
      ⟨blk, lenf', q, hb, hp, -, hcase⟩ | ⟨blk, lenf', q, -, hp, hplain, -⟩
    · rw [h.stored.blank j hlt] at hb
      cases hb
    · rw [hparse] at hp
      cases hp
    · rw [hparse, Option.some.injEq, Prod.mk.injEq, Prod.mk.injEq] at hp
      obtain ⟨rfl, rfl, rfl⟩ := hp
      rw [hstep] at hcase
      rcases hcase with ⟨hc, h1, h2⟩ | ⟨hc, h1, -⟩
      · have hne : j + 1 ≠ parts.length := of_decide_eq_false hc
        rw [h1, h2]
        exact ⟨fun _ => ⟨hlow, .inr rfl⟩, fun h' => absurd h' hne⟩
      · have hend : j + 1 = parts.length := of_decide_eq_true hc
        refine ⟨fun h' => absurd hend (by omega), fun _ => ?_⟩
        rw [h1] at hroom ⊢
        exact adopt_new (r := r'.1.note e.id lenf e.seq) hlow rfl rfl hroom
    · rw [hparse, Option.some.injEq, Prod.mk.injEq, Prod.mk.injEq] at hp
      obtain ⟨-, rfl, -⟩ := hp
      rw [hpart] at hplain
      cases hplain

/-- The sector of the chain. -/
theorem mountSector_held (h : Latest ops slots f e parts) {r : Recovery} (hr : Low e r.table)
    {n : ℕ} (hn : n ≤ slots) (hend : e.refOff + parts.length ≤ n)
    (hroom : (mountSector ops f e.sector r n).1.poolOverflow = false) :
    Held e (mountSector ops f e.sector r n).1.table := by
  induction n with
  | zero =>
    have := h.stored.chain.count
    have := two_le_chainParts h.stored.chain.range.1
    omega
  | succ n ih =>
    by_cases hle : e.refOff + parts.length ≤ n
    · have hprev := ih (by omega) hle (mountSector_overflow (Nat.le_succ n) hroom)
      rw [mountSector_succ]
      exact mountSlot_keeps (fun _ _ _ _ => adopt_held) hprev
        (h.outside (by omega) (.inr (.inr hle)))
    · have heq : n + 1 = e.refOff + parts.length := by omega
      rw [heq] at hroom ⊢
      exact (mountSector_chain h hr _ (Nat.le_refl _) hroom).2 rfl

theorem mount_held {w : World φ} (h : Latest ops w.j.slots w.flash e parts) :
    (mount ops w).1 = true ∧
      ((mount ops w).2.j.poolOverflow = false → Held e (mount ops w).2.j.table) := by
  have hslots : w.j.slots ≠ 0 := by
    have := h.stored.range
    have := h.stored.chain.count
    have := two_le_chainParts h.stored.chain.range.1
    omega
  unfold mount
  rw [if_neg hslots]
  refine ⟨rfl, fun hroom => ?_⟩
  dsimp only at hroom ⊢
  have hlow0 : Low e ({} : Recovery).table := fun i hp => by cases hp
  by_cases hsec : e.sector = 0
  · have hheld := mountSector_held h hlow0 (Nat.le_refl _) h.stored.range
    rw [hsec] at hheld
    refine mountSector_keeps h (by rw [hsec]; decide) (fun _ _ _ _ => adopt_held) (hheld ?_)
      (Nat.le_refl _)
    by_contra hcon
    have hstart : (mountSector ops w.flash 1 (mountSector ops w.flash 0 {} w.j.slots).1
        0).1.poolOverflow = true := by simpa [mountSector] using hcon
    rw [mountSector_overflow (Nat.zero_le _) hroom] at hstart
    cases hstart
  · have hone : e.sector = 1 := by
      have hsector : ∀ s : Fin 2, s ≠ 0 → s = 1 := by decide
      exact hsector _ hsec
    have hlow := mountSector_keeps (s := 0) h (by rw [hone]; decide) (fun _ _ _ _ => adopt_low) hlow0
      (Nat.le_refl _)
    have hheld := mountSector_held h hlow (Nat.le_refl _) h.stored.range
    rw [hone] at hheld
    exact hheld hroom

end Latest

end BloblyEmb.Nvm
