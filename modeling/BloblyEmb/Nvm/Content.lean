import BloblyEmb.Nvm.Codec

/-!
# The journal as a map

What a journal is for is a map from block numbers to byte strings. The map it stands for is what can
be read of its table; every operation does to it what it answers, whatever else it moves in flash.
-/
namespace BloblyEmb.Nvm

variable {φ : Type} {ops : FlashOps φ} {w w' : World φ}

/-- A value for each block that has one. -/
abbrev Content := UInt16 → Option (List UInt8)

/-- The first bytes of a block's value. -/
def Content.get (c : Content) (block : UInt16) (cap : ℕ) : List UInt8 :=
  ((c block).getD []).take cap

/-- What an operation does to the map, by what it answered. -/
def Content.step (c : Content) : Op × Bool → Content
  | (.put block data, true) => Function.update c block (some data)
  | (.prune keep, _) => fun block => if block ∈ keep then c block else none
  | _ => c

/-- The value of a row: the bytes in the table, or the parts in flash. -/
def Entry.value (ops : FlashOps φ) (f : φ) (e : Entry) : List UInt8 :=
  if e.chained then
    (readChain (ops.read f e.sector) e.refOff e.id e.seq (chainParts e.len) e.len).getD []
  else e.data

/-- The map that a journal stands for. -/
def World.content (ops : FlashOps φ) (w : World φ) : Content := fun block =>
  (find w.j.table block).map fun i => (w.j.table i).value ops w.flash

/-- What an operation answers; a prune answers nothing. -/
def answer (ops : FlashOps φ) (w : World φ) : Op → Bool
  | .put block data => (put ops block data w).1
  | .markClean => (markClean ops w).1
  | .compact => (compact ops w).1
  | .erasePending => (erasePending ops w).1
  | .prune _ => true

/-- The operations of a run with what they answer. -/
def answers (ops : FlashOps φ) (w : World φ) : List Op → List (Op × Bool)
  | [] => []
  | o :: os => (o, answer ops w o) :: answers ops (step ops w o) os

/-! ## Rows and their values -/

/-- Every row holds a value. -/
def Valued (ops : FlashOps φ) (w : World φ) : Prop :=
  ∀ i, (w.j.table i).present = true → ∃ data, Value ops w i (w.j.table i).id data

theorem Value.value {i : Fin maxBlocks} {id : UInt16} {data : List UInt8}
    (h : Value ops w i id data) : (w.j.table i).value ops w.flash = data := by
  unfold Entry.value
  by_cases hc : (w.j.table i).chained = true
  · obtain ⟨parts, hst, hdata⟩ := h.stored hc
    rw [if_pos hc, ← hst.chain.count, hst.chain.readChain (fun k hk => ?_) (Nat.le_refl _), h.len,
      hdata, Option.getD_some, List.take_length]
    obtain ⟨⟨lenf, hparse, -⟩, -⟩ := hst.chain.part k hk
    exact ⟨_, read_of_parse (by rw [hparse]; simp), fun _ _ => rfl⟩
  · rw [if_neg hc]
    exact h.plain (by simpa using hc)

theorem Holds.content {block : UInt16} {data : List UInt8} (h : Holds ops w block data) :
    w.content ops block = some data := by
  obtain ⟨-, i, hf, hv⟩ := h
  rw [World.content, hf, Option.map_some, hv.value]

theorem content_none {block : UInt16} (h : find w.j.table block = none) :
    w.content ops block = none := by
  rw [World.content, h, Option.map_none]

/-- A block has no row, or its row holds its value. -/
theorem Valued.cases (h : Valued ops w) (block : UInt16) :
    find w.j.table block = none ∨
      ∃ i data, find w.j.table block = some i ∧ Value ops w i block data := by
  cases hf : find w.j.table block with
  | none => exact .inl rfl
  | some i =>
    obtain ⟨hp, hid⟩ := find_some hf
    obtain ⟨data, hv⟩ := h i hp
    exact .inr ⟨i, data, rfl, hid ▸ hv⟩

/-- The value of a block that has the same row in two journals, where the row keeps its value. -/
theorem Valued.content_eq (h : Valued ops w) {block : UInt16}
    (hfind : find w'.j.table block = find w.j.table block)
    (hkeep : ∀ i data, find w.j.table block = some i → Value ops w i block data →
      Value ops w' i block data) : w'.content ops block = w.content ops block := by
  rcases h.cases block with hnone | ⟨i, data, hf, hv⟩
  · rw [content_none hnone, content_none (hfind.trans hnone)]
  · have hv' := hkeep i data hf hv
    rw [World.content, World.content, hfind, hf, Option.map_some, Option.map_some, hv.value, hv'.value]

/-! ## What a mount installs -/

/-- A plain row has its length. -/
def Entry.sized (e : Entry) : Prop := e.chained = false → e.data.length = e.len

theorem adopt_sized {r : Recovery} {id : UInt16} {seq : UInt32} {value : Entry → Entry}
    (h : ∀ i, (r.table i).present → (r.table i).sized)
    (hnew : ∀ e : Entry, ((value e).newest id seq).sized) (i : Fin maxBlocks)
    (hp : ((r.adopt id seq value).table i).present) : ((r.adopt id seq value).table i).sized :=
  adopt_forall h hnew i hp

theorem mountSlot_sized (ops : FlashOps φ) (f : φ) (s : Fin 2) (m : ℕ) {r : Recovery × Sector}
    (h : ∀ i, (r.1.table i).present → (r.1.table i).sized) :
    ∀ i, ((mountSlot ops f s r m).1.table i).present → ((mountSlot ops f s r m).1.table i).sized := by
  rcases mountSlot_cases ops f s r m with ⟨-, h1, -⟩ | ⟨-, -, h1, -⟩ |
    ⟨blk, lenf, q, -, -, -, ⟨-, h1, -⟩ | ⟨-, h1, -⟩⟩ |
    ⟨blk, lenf, q, -, -, -, -, ⟨-, h1⟩ | ⟨-, h1⟩⟩
  · rw [h1]
    exact h
  · rw [h1]
    exact h
  · rw [h1]
    exact h
  · rw [h1]
    refine adopt_sized h fun e hc => ?_
    cases hc
  · rw [h1]
    exact h
  · rw [h1]
    exact adopt_sized h fun e _ => Ptr.length_slice _ _ _

theorem mountSector_sized (ops : FlashOps φ) (f : φ) (s : Fin 2) {r : Recovery}
    (h : ∀ i, (r.table i).present → (r.table i).sized) (n : ℕ) :
    ∀ i, ((mountSector ops f s r n).1.table i).present →
      ((mountSector ops f s r n).1.table i).sized := by
  induction n with
  | zero => exact h
  | succ n ih =>
    rw [mountSector_succ]
    exact mountSlot_sized ops f s n ih

theorem mount_sized (hok : (mount ops w).1 = true) :
    ∀ i, ((mount ops w).2.j.table i).present → ((mount ops w).2.j.table i).sized := by
  unfold mount at hok ⊢
  by_cases h0 : w.j.slots = 0
  · simp [h0] at hok
  · rw [if_neg h0]
    refine mountSector_sized ops w.flash 1 (mountSector_sized ops w.flash 0 (fun i hp => ?_) _) _
    cases hp

/-- A row that is backed in flash and has its length holds a value. -/
theorem value_of_backed {i : Fin maxBlocks} (hp : (w.j.table i).present = true)
    (hb : Backed ops w.j.slots w.flash (w.j.table i)) (hs : (w.j.table i).sized) :
    ∃ data, Value ops w i (w.j.table i).id data := by
  rw [Backed] at hb
  by_cases hc : (w.j.table i).chained = true
  · rw [if_pos hc] at hb
    obtain ⟨parts, hst⟩ := hb
    have hlen := hst.chain.length
    refine ⟨parts.flatten, hp, rfl, hlen.symm, ?_, fun h => ?_, fun _ => ⟨parts, hst, rfl⟩⟩
    · rw [hc, hlen]
      exact (decide_eq_true hst.chain.range.1).symm
    · rw [hc] at h
      cases h
  · rw [if_neg hc] at hb
    have hplain : (w.j.table i).chained = false := by simpa using hc
    have hlen := hs hplain
    refine ⟨(w.j.table i).data, hp, rfl, hlen.symm, ?_, fun _ => rfl, fun h => absurd h hc⟩
    rw [hplain, hlen]
    exact (decide_eq_false (Nat.not_lt.mpr hb.1)).symm

/-! ## Operations -/

theorem SameValues.valued (hsame : SameValues ops w w') (h : Valued ops w) : Valued ops w' := by
  intro i hp
  obtain ⟨hpres, hid, -⟩ := hsame.row i
  obtain ⟨data, hv⟩ := h i (hpres ▸ hp)
  exact ⟨data, hid ▸ hv.same hsame⟩

theorem SameValues.content (hsame : SameValues ops w w') (h : Valued ops w) :
    w'.content ops = w.content ops :=
  funext fun block => h.content_eq (find_congr block fun j => ⟨(hsame.row j).1, (hsame.row j).2.1⟩)
    fun _ _ _ hv => hv.same hsame

theorem Written.valued {block : UInt16} {data : List UInt8} {k : Fin maxBlocks}
    (hw : Written ops w w' block data k) (h : Valued ops w) : Valued ops w' := by
  intro i hp
  by_cases hik : i = k
  · subst hik
    refine ⟨data, ?_⟩
    rw [hw.value.id]
    exact hw.value
  · obtain ⟨⟨hpres, -, hid⟩, hkeep⟩ := hw.others i hik
    obtain ⟨d, hv⟩ := h i (hpres ▸ hp)
    exact ⟨d, hid ▸ hkeep _ _ hv⟩

theorem Written.content {block : UInt16} {data : List UInt8} {k : Fin maxBlocks}
    (hw : Written ops w w' block data k) (hm : w.j.mounted = true) (h : Valued ops w) :
    w'.content ops = Function.update (w.content ops) block (some data) := by
  funext b
  by_cases hb : b = block
  · subst hb
    rw [Function.update_self]
    exact (hw.holds hm).content
  · rw [Function.update_of_ne hb]
    refine h.content_eq (find_other (fun j hj => ⟨(hw.others j hj).1.1, (hw.others j hj).1.2.2⟩) hw.row
      (Ne.symm hb) hw.value.id) fun i d hf hv => (hw.others i ?_).2 _ _ hv
    rintro rfl
    rcases slotFor_some hw.row with hf' | ⟨-, hfree⟩
    · exact hb (hv.id.symm.trans (find_some hf').2)
    · rw [hv.present] at hfree
      cases hfree

theorem prune_table (hm : w.j.mounted = true) (keep : List UInt16) (i : Fin maxBlocks) :
    (prune keep w).j.table i =
      if (w.j.table i).present ∧ (w.j.table i).id ∉ keep then {} else w.j.table i := by
  unfold prune
  rw [if_neg (by simp [hm])]

theorem prune_flash (keep : List UInt16) (w : World φ) :
    (prune keep w).flash = w.flash ∧ (prune keep w).j.slots = w.j.slots := by
  unfold prune
  split
  · exact ⟨rfl, rfl⟩
  · exact ⟨rfl, rfl⟩

theorem Value.pruned {i : Fin maxBlocks} {id : UInt16} {data : List UInt8} {keep : List UInt16}
    (h : Value ops w i id data) (hrow : (prune keep w).j.table i = w.j.table i) :
    Value ops (prune keep w) i id data := by
  obtain ⟨hflash, hslots⟩ := prune_flash keep w
  refine ⟨?_, ?_, ?_, ?_, ?_, ?_⟩ <;> rw [hrow]
  · exact h.present
  · exact h.id
  · exact h.len
  · exact h.chained
  · exact h.plain
  · rw [hflash, hslots]
    exact h.stored

theorem prune_valued (hinv : Inv ops w) (h : Valued ops w) (keep : List UInt16) :
    Valued ops (prune keep w) := by
  intro i hp
  have hrow := (prune_spec hinv keep).2.2 i hp
  rw [hrow] at hp ⊢
  obtain ⟨data, hv⟩ := h i hp
  exact ⟨data, hv.pruned hrow⟩

theorem prune_content (hm : w.j.mounted = true) (h : Valued ops w) (keep : List UInt16)
    (block : UInt16) :
    (prune keep w).content ops block = if block ∈ keep then w.content ops block else none := by
  by_cases hk : block ∈ keep
  · rw [if_pos hk]
    have hkept : ∀ i, (w.j.table i).id = block → (prune keep w).j.table i = w.j.table i := by
      intro i hid
      rw [prune_table hm, if_neg]
      rintro ⟨-, hdrop⟩
      exact hdrop (hid ▸ hk)
    refine h.content_eq (find_congr' fun i => ?_) fun i d hf hv =>
      hv.pruned (hkept i (find_some hf).2)
    by_cases hid : (w.j.table i).id = block
    · rw [hkept i hid]
    · rw [prune_table hm]
      by_cases hdrop : (w.j.table i).present ∧ (w.j.table i).id ∉ keep
      · rw [if_pos hdrop]
        simp [hid]
      · rw [if_neg hdrop]
  · rw [if_neg hk]
    refine content_none (List.find?_eq_none.mpr fun i _ hrow => ?_)
    rw [Bool.and_eq_true, beq_iff_eq, prune_table hm] at hrow
    by_cases hdrop : (w.j.table i).present ∧ (w.j.table i).id ∉ keep
    · rw [if_pos hdrop] at hrow
      cases hrow.1
    · rw [if_neg hdrop] at hrow
      exact hdrop ⟨hrow.1, hrow.2 ▸ hk⟩

theorem step_valued (hs : Sound ops) (hinv : Inv ops w) (h : Valued ops w) (o : Op) :
    Valued ops (step ops w o) := by
  cases o with
  | put block data =>
    obtain ⟨-, hfail, hok⟩ := put_spec hs hinv block data
    by_cases hput : (put ops block data w).1 = true
    · obtain ⟨-, k, hw⟩ := hok hput
      exact hw.valued h
    · exact (hfail (by simpa using hput)).valued h
  | markClean => exact (markClean_spec hs hinv).2.valued h
  | compact => exact (compact_spec hs hinv).2.valued h
  | erasePending => exact (erasePending_spec hs hinv).2.valued h
  | prune keep => exact prune_valued hinv h keep

/-- An operation does to the map what it answers. -/
theorem step_content (hs : Sound ops) (hinv : Inv ops w) (hm : w.j.mounted = true)
    (h : Valued ops w) (o : Op) :
    (step ops w o).content ops = (w.content ops).step (o, answer ops w o) := by
  cases o with
  | put block data =>
    obtain ⟨-, hfail, hok⟩ := put_spec hs hinv block data
    cases hput : (put ops block data w).1 with
    | true =>
      obtain ⟨-, k, hw⟩ := hok hput
      rw [answer, hput]
      exact hw.content hm h
    | false =>
      rw [answer, hput]
      exact (hfail hput).content h
  | markClean => exact (markClean_spec hs hinv).2.content h
  | compact => exact (compact_spec hs hinv).2.content h
  | erasePending => exact (erasePending_spec hs hinv).2.content h
  | prune keep => exact funext (prune_content hm h keep)

/-! ## Runs -/

theorem reachable_valued (hs : Sound ops) (hw : Reachable ops w) : Valued ops w := by
  induction hw with
  | mount w idle ok =>
    exact fun i hp => value_of_backed hp ((mount_spec idle ok).backed i hp) (mount_sized ok i hp)
  | step h o ih => exact step_valued hs (reachable_inv hs h).1 ih o

/-- By induction on the operations: a run does to the map what its operations answer. -/
theorem run_content (hs : Sound ops) (hw : Reachable ops w) (os : List Op) :
    (run ops w os).content ops = (answers ops w os).foldl Content.step (w.content ops) := by
  induction os generalizing w with
  | nil => rfl
  | cons o os ih =>
    obtain ⟨hinv, hm⟩ := reachable_inv hs hw
    rw [answers, List.foldl_cons, ← step_content hs hinv hm (reachable_valued hs hw) o]
    exact ih (hw.step o)

theorem run_reachable (hw : Reachable ops w) (os : List Op) : Reachable ops (run ops w os) := by
  induction os generalizing w with
  | nil => exact hw
  | cons o os ih => exact ih (hw.step o)

/-- What is read is what the map holds. -/
theorem get_content (hs : Sound ops) (hw : Reachable ops w) (block : UInt16) (cap : ℕ) :
    get ops block cap w = (w.content ops).get block cap := by
  obtain ⟨-, hm⟩ := reachable_inv hs hw
  rcases (reachable_valued hs hw).cases block with hnone | ⟨i, data, hf, hv⟩
  · rw [Content.get, content_none hnone, Option.getD_none, List.take_nil, Nvm.get, if_neg (by simp [hm]),
      hnone]
  · have hholds : Holds ops w block data := ⟨hm, i, hf, hv⟩
    rw [hholds.get, Content.get, hholds.content, Option.getD_some]

/-- No value is longer than a chain can be, and neither reserved block has one. -/
theorem content_wellFormed (hs : Sound ops) (hw : Reachable ops w) {block : UInt16}
    {data : List UInt8} (h : w.content ops block = some data) :
    data.length ≤ chainDataMax ∧ block ≠ markerBlock ∧ block ≠ idReserved := by
  obtain ⟨hinv, hm⟩ := reachable_inv hs hw
  rcases (reachable_valued hs hw).cases block with hnone | ⟨i, d, hf, hv⟩
  · rw [content_none hnone] at h
    cases h
  · have hholds : Holds ops w block d := ⟨hm, i, hf, hv⟩
    obtain rfl := Option.some.inj (hholds.content.symm.trans h)
    have hb := hinv.backed i hv.present
    rw [Backed] at hb
    by_cases hc : (w.j.table i).chained = true
    · rw [if_pos hc] at hb
      obtain ⟨parts, hst⟩ := hb
      exact ⟨hv.len ▸ hst.chain.range.2, hv.id ▸ hst.chain.block⟩
    · rw [if_neg hc, hv.len, hv.id] at hb
      exact ⟨Nat.le_trans hb.1 (by decide), hb.2⟩

/-- **The journal is a map.** From any mount of any flash, through any operations, whichever of them
or of the flash operations under them fail, a journal stands for the map that its answers make of the
one it had: an accepted put sets its block, a prune drops the blocks it does not keep, and nothing else
(a refused put, a clean marker, a compaction, an erased sector) changes a value. What `get` reads is
what the map holds, and the map has no value beyond the longest chain and none under a reserved
number. -/
theorem journal_refines_map (hs : Sound ops) (hw : Reachable ops w) (os : List Op) :
    (run ops w os).content ops = (answers ops w os).foldl Content.step (w.content ops) ∧
      (∀ block cap, get ops block cap (run ops w os) =
        ((answers ops w os).foldl Content.step (w.content ops)).get block cap) ∧
      ∀ block data, (answers ops w os).foldl Content.step (w.content ops) block = some data →
        data.length ≤ chainDataMax ∧ block ≠ markerBlock ∧ block ≠ idReserved := by
  have hrun := run_content hs hw os
  have hreach := run_reachable hw os
  refine ⟨hrun, fun block cap => ?_, fun block data h => ?_⟩
  · rw [get_content hs hreach, hrun]
  · rw [← hrun] at h
    exact content_wellFormed hs hreach h

theorem journal_refines_map_erased :
    get memFlash 5 30 (run memFlash (mount memFlash erased).2
      [.put 5 (List.replicate 21 7), .put 6 [1, 2], .compact, .prune [5]]) = List.replicate 21 7 := by
  have hw : Reachable memFlash (mount memFlash erased).2 := .mount erased rfl (by decide +kernel)
  rw [(journal_refines_map memFlash_sound hw _).2.1]
  decide +kernel

end BloblyEmb.Nvm
