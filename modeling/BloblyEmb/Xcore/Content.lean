import Mathlib.Algebra.Order.Ring.Nat
import BloblyEmb.Xcore.Down
import BloblyEmb.Xioc.Torn

/-!
# A channel that its owner initialised

Between the moment at which an owner boot has initialised a channel and the next begin, the slots
hold what was published since, and what a reader holds of a publication stays that publication until
its slot is stored again.
-/
namespace BloblyEmb.Xcore

open Xioc (nextSeq slots Kind)

namespace Channel

/-- The number of a publication. -/
def num (c : Channel) (k : ℕ) : UInt32 := nextSeq^[k + 1] c.seed

theorem num_ne_zero (c : Channel) (k : ℕ) : c.num k ≠ 0 := by
  simp only [num, Function.iterate_succ_apply']
  exact Xioc.nextSeq_ne_zero _

theorem num_ne (c : Channel) {k q : ℕ} (hkq : k < q) (hlap : q < k + (2 ^ 32 - 1)) :
    c.num k ≠ c.num q := Xioc.iterate_ne _ (by omega) (by omega) (by omega)

theorem slot_eq (n : UInt32) (words : ℕ) :
    Kind.wide.slot n words = n.toNat % slots * (1 + words) := rfl

/-- What a channel of that many words promises once it is initialised. -/
structure Good (c : Channel) (width : ℕ) : Prop where
  words : c.words = width
  wseq : c.wseq = nextSeq^[c.count] c.seed
  le : c.pub ≤ c.count
  none : c.pub = 0 → c.latest = 0
  latest : 0 < c.pub → c.latest = c.num (c.pub - 1) ∧
    ∀ q, c.slot ((c.num (c.pub - 1)).toNat % slots) = some q → c.pub - 1 ≤ q
  length : ∀ k < c.count, (c.value k).length = width
  stands : ∀ j q, c.slot j = some q → q < c.count ∧ j = (c.num q).toNat % slots ∧
    c.cell (j * (1 + width)) = c.num q ∧
    ∀ i < width, c.cell (j * (1 + width) + 1 + i) = (c.value q).getD i 0
  empty : ∀ j < slots, c.slot j = .none → c.cell (j * (1 + width)) = 0

/-- The publication that the owner is at. -/
structure Begun (c : Channel) (n : UInt32) (v : List UInt32) : Prop where
  count : c.count = c.pub + 1
  num : n = c.num c.pub
  value : v = c.value c.pub

/-- Its slot is invalid, and holds so many words of it. -/
structure Stored (c : Channel) (width : ℕ) (n : UInt32) (v : List UInt32) (i : ℕ) : Prop
    extends Begun c n v where
  invalid : c.slot (n.toNat % slots) = .none
  words : ∀ j < i, c.cell (Kind.wide.slot n width + 1 + j) = v.getD j 0

/-- What may happen to a channel while the gate stands open. -/
structure Moves (c c' : Channel) : Prop where
  seed : c'.seed = c.seed
  pub : c.pub ≤ c'.pub
  value : ∀ k < c.pub, c'.value k = c.value k
  slot : ∀ j q, c'.slot j = some q → c.slot j = some q ∨ c.pub ≤ q

theorem Moves.refl (c : Channel) : Moves c c :=
  ⟨rfl, Nat.le_refl _, fun _ _ => rfl, fun _ _ => Or.inl⟩

/-- What a reader holds of a publication: the words are of it as long as it stands. -/
structure Holding (c : Channel) (k : ℕ) (n : UInt32) (tmp : List UInt32) : Prop where
  published : k < c.pub
  num : n = c.num k
  newest : ∀ q, c.slot (n.toNat % slots) = some q → k ≤ q
  whole : c.slot (n.toNat % slots) = some k → tmp = (c.value k).take tmp.length

section

variable {c c' : Channel} {width : ℕ} {n : UInt32} {v : List UInt32} {i : ℕ}

theorem num_congr (h : c'.seed = c.seed) (k : ℕ) : c'.num k = c.num k := by
  simp only [num, h]

theorem Holding.moves {k : ℕ} {tmp : List UInt32} (h : c.Holding k n tmp) (hm : Moves c c') :
    c'.Holding k n tmp := by
  have hpub := h.published
  constructor
  case published => exact Nat.lt_of_lt_of_le hpub hm.pub
  case num => rw [num_congr hm.seed, h.num]
  case newest =>
    intro q hq
    rcases hm.slot _ q hq with hq | hq
    · exact h.newest q hq
    · omega
  case whole =>
    intro hk
    rcases hm.slot _ k hk with hk | hk
    · rw [hm.value k hpub]
      exact h.whole hk
    · omega

/-! ## What the owner does -/

theorem good_geometry (hlatest : c.latest = 0)
    (hcell : ∀ j < slots * (1 + width), c.cell j = 0) : (c.geometry width).Good width := by
  constructor
  case words => rfl
  case wseq => rfl
  case le => exact Nat.le_refl _
  case none => exact fun _ => hlatest
  case latest => exact fun h => absurd h (Nat.lt_irrefl 0)
  case length => exact fun k h => absurd h (Nat.not_lt_zero k)
  case stands =>
    intro j q hq
    cases hq
  case empty =>
    intro j hj _
    have hmul := Nat.mul_le_mul_right (1 + width) (Nat.succ_le_of_lt hj)
    rw [Nat.succ_mul] at hmul
    exact hcell _ (by omega)

theorem Good.start (h : c.Good width) (hidle : c.pub = c.count) (hv : v.length = width) :
    (c.start v).Good width ∧ (c.start v).Begun (nextSeq c.wseq) v ∧ Moves c (c.start v) := by
  have hold : ∀ k < c.count, (c.start v).value k = c.value k := by
    intro k hk
    simp [Channel.start, Function.update_of_ne (Nat.ne_of_lt hk)]
  have hnew : (c.start v).value c.count = v := by
    simp [Channel.start]
  have hnum : nextSeq c.wseq = c.num c.count := by
    rw [h.wseq, num, Function.iterate_succ_apply']
  refine ⟨?_, ?_, ?_⟩
  · constructor
    case words => exact h.words
    case wseq => exact hnum
    case le => exact Nat.le_succ_of_le h.le
    case none => exact h.none
    case latest => exact h.latest
    case length =>
      intro k hk
      rcases Nat.lt_succ_iff_lt_or_eq.mp hk with hk | rfl
      · rw [hold k hk]
        exact h.length k hk
      · rw [hnew, hv]
    case stands =>
      intro j q hq
      obtain ⟨hlt, hj, hseq, hwords⟩ := h.stands j q hq
      refine ⟨Nat.lt_succ_of_lt hlt, hj, hseq, ?_⟩
      rw [hold q hlt]
      exact hwords
    case empty => exact h.empty
  · constructor
    case count => simp [Channel.start, hidle]
    case num => rw [hnum, ← hidle]; rfl
    case value => rw [show (c.start v).pub = c.count from hidle, hnew]
  · constructor
    case seed => rfl
    case pub => exact Nat.le_refl _
    case value => exact fun k hk => hold k (by omega)
    case slot => exact fun _ _ => Or.inl

/-- A sequence word is of one slot. -/
theorem seq_ne {a b : ℕ} (hab : a ≠ b) (width : ℕ) : a * (1 + width) ≠ b * (1 + width) := by
  intro h
  exact hab (Nat.eq_of_mul_eq_mul_right (by omega) h)

theorem word_ne {a b i j : ℕ} (hab : a ≠ b) (hi : i < width) (hj : j ≤ width) :
    a * (1 + width) + 1 + i ≠ b * (1 + width) + j := by
  intro h
  exact hab (Xioc.slot_apart h hi hj (Nat.le_refl _))

/-- A store of a sequence word leaves what stands in the other slots. -/
theorem Good.storeSeq (h : c.Good width) {x : UInt32} {s : Option ℕ}
    (hstands : ∀ q, s = some q → q < c.count ∧ n = c.num q ∧ x = c.num q ∧
      ∀ i < width, c.cell (Kind.wide.slot n width + 1 + i) = (c.value q).getD i 0)
    (hempty : s = .none → x = 0) (hnew : ∀ q, s = some q → c.pub ≤ q) :
    (c.storeSeq n x s).Good width := by
  have hself : (c.storeSeq n x s).cell (n.toNat % slots * (1 + width)) = x := by
    simp [Channel.storeSeq, h.words, slot_eq]
  have hseq : ∀ j, j ≠ n.toNat % slots →
      (c.storeSeq n x s).cell (j * (1 + width)) = c.cell (j * (1 + width)) := by
    intro j hj
    simp only [Channel.storeSeq, h.words, slot_eq]
    exact Function.update_of_ne (seq_ne hj width) _ _
  have hword : ∀ j i, i < width →
      (c.storeSeq n x s).cell (j * (1 + width) + 1 + i) = c.cell (j * (1 + width) + 1 + i) := by
    intro j i hi
    simp only [Channel.storeSeq, h.words, slot_eq]
    refine Function.update_of_ne ?_ _ _
    by_cases hj : j = n.toNat % slots
    · subst hj
      omega
    · exact word_ne hj hi (Nat.zero_le _)
  have hat : (c.storeSeq n x s).slot (n.toNat % slots) = s := by
    simp [Channel.storeSeq]
  have hof : ∀ j, j ≠ n.toNat % slots → (c.storeSeq n x s).slot j = c.slot j := by
    intro j hj
    simp [Channel.storeSeq, Function.update_of_ne hj]
  constructor
  case words => exact h.words
  case wseq => exact h.wseq
  case le => exact h.le
  case none => exact h.none
  case latest =>
    intro hpub
    obtain ⟨hlatest, hslot⟩ := h.latest hpub
    refine ⟨hlatest, ?_⟩
    intro q hq
    by_cases hj : (c.num (c.pub - 1)).toNat % slots = n.toNat % slots
    · have hle := hnew q (hat.symm.trans (hj ▸ hq))
      exact Nat.le_trans (Nat.sub_le _ _) hle
    · exact hslot q ((hof _ hj).symm.trans hq)
  case length => exact h.length
  case stands =>
    intro j q hq
    by_cases hj : j = n.toNat % slots
    · subst hj
      obtain ⟨hlt, hn, hx, hwords⟩ := hstands q (hat.symm.trans hq)
      refine ⟨hlt, by rw [hn]; rfl, hself.trans hx, ?_⟩
      intro i hi
      exact (hword _ i hi).trans (hwords i hi)
    · obtain ⟨hlt, hres, hval, hwords⟩ := h.stands j q ((hof j hj).symm.trans hq)
      refine ⟨hlt, hres, (hseq j hj).trans hval, ?_⟩
      intro i hi
      exact (hword j i hi).trans (hwords i hi)
  case empty =>
    intro j hlt hj
    by_cases hja : j = n.toNat % slots
    · subst hja
      exact hself.trans (hempty (hat.symm.trans hj))
    · exact (hseq j hja).trans (h.empty j hlt ((hof j hja).symm.trans hj))

theorem moves_storeSeq {x : UInt32} {s : Option ℕ} (hnew : ∀ q, s = some q → c.pub ≤ q) :
    Moves c (c.storeSeq n x s) := by
  constructor
  case seed => rfl
  case pub => exact Nat.le_refl _
  case value => exact fun _ _ => rfl
  case slot =>
    intro j q hq
    by_cases hj : j = n.toNat % slots
    · subst hj
      exact Or.inr (hnew q (by simpa [Channel.storeSeq] using hq))
    · exact Or.inl (by simpa [Channel.storeSeq, Function.update_of_ne hj] using hq)

theorem Good.invalidate (h : c.Good width) (hb : c.Begun n v) :
    (c.invalidate n).Good width ∧ (c.invalidate n).Stored width n v 0 ∧
      Moves c (c.invalidate n) := by
  refine ⟨h.storeSeq (by simp) (fun _ => rfl) (by simp), ?_, moves_storeSeq (by simp)⟩
  constructor
  case toBegun => exact ⟨hb.count, hb.num, hb.value⟩
  case invalid => simp [Channel.invalidate, Channel.storeSeq]
  case words => exact fun j hj => absurd hj (Nat.not_lt_zero j)

theorem Good.payload (h : c.Good width) (hs : c.Stored width n v i) (hi : i < width) :
    (c.payload n v i).Good width ∧ (c.payload n v i).Stored width n v (i + 1) ∧
      Moves c (c.payload n v i) := by
  have hseq : ∀ j, (c.payload n v i).cell (j * (1 + width)) = c.cell (j * (1 + width)) := by
    intro j
    simp only [Channel.payload, h.words, slot_eq]
    refine Function.update_of_ne (Ne.symm ?_) _ _
    by_cases hj : n.toNat % slots = j
    · subst hj
      omega
    · exact word_ne hj hi (Nat.zero_le _)
  have hword : ∀ j, j ≠ n.toNat % slots → ∀ i' < width,
      (c.payload n v i).cell (j * (1 + width) + 1 + i') = c.cell (j * (1 + width) + 1 + i') := by
    intro j hj i' hi'
    simp only [Channel.payload, h.words, slot_eq]
    refine Function.update_of_ne ?_ _ _
    rw [Nat.add_assoc (n.toNat % slots * (1 + width))]
    exact word_ne hj hi' (by omega)
  refine ⟨?_, ?_, ?_⟩
  · constructor
    case words => exact h.words
    case wseq => exact h.wseq
    case le => exact h.le
    case none => exact h.none
    case latest => exact h.latest
    case length => exact h.length
    case stands =>
      intro j q hq
      obtain ⟨hlt, hres, hval, hwords⟩ := h.stands j q hq
      have hne : j ≠ n.toNat % slots := by
        rintro rfl
        simp [hs.invalid, Channel.payload] at hq
      refine ⟨hlt, hres, (hseq j).trans hval, ?_⟩
      intro i' hi'
      exact (hword j hne i' hi').trans (hwords i' hi')
    case empty =>
      intro j hlt hj
      exact (hseq j).trans (h.empty j hlt hj)
  · constructor
    case toBegun => exact ⟨hs.count, hs.num, hs.value⟩
    case invalid => exact hs.invalid
    case words =>
      intro j hj
      simp only [Channel.payload, h.words]
      rcases Nat.lt_succ_iff_lt_or_eq.mp hj with hj | rfl
      · rw [Function.update_of_ne (by omega)]
        exact hs.words j hj
      · rw [Function.update_self]
  · exact ⟨rfl, Nat.le_refl _, fun _ _ => rfl, fun _ _ => Or.inl⟩

theorem Good.validate (h : c.Good width) (hs : c.Stored width n v width) :
    (c.validate n).Good width ∧ (c.validate n).Begun n v ∧
      (c.validate n).slot (n.toNat % slots) = some c.pub ∧ Moves c (c.validate n) := by
  have hcount : c.count - 1 = c.pub := by
    have := hs.count
    omega
  have hnew : ∀ q, some (c.count - 1) = some q → c.pub ≤ q := by
    intro q hq
    cases hq
    omega
  refine ⟨?_, ⟨hs.count, hs.num, hs.value⟩, ?_, moves_storeSeq hnew⟩
  · refine h.storeSeq ?_ (by simp) hnew
    intro q hq
    cases hq
    have hlt := hs.count
    rw [hcount]
    refine ⟨by omega, hs.num, hs.num, ?_⟩
    intro j hj
    rw [← hs.value]
    exact hs.words j hj
  · simp [Channel.validate, Channel.storeSeq, hcount]

theorem Good.publish (h : c.Good width) (hb : c.Begun n v)
    (hslot : c.slot (n.toNat % slots) = some c.pub) :
    (c.publish n).Good width ∧ (c.publish n).pub = (c.publish n).count ∧
      Moves c (c.publish n) := by
  have hcount := hb.count
  have hpub : (c.publish n).pub - 1 = c.pub := by
    simp only [Channel.publish]
    omega
  have hnum : (c.publish n).num c.pub = n := by
    rw [hb.num]
    rfl
  refine ⟨?_, rfl, ?_⟩
  · constructor
    case words => exact h.words
    case wseq => exact h.wseq
    case le => exact Nat.le_refl _
    case none =>
      intro hzero
      simp only [Channel.publish] at hzero
      omega
    case latest =>
      intro _
      rw [hpub, hnum]
      refine ⟨rfl, ?_⟩
      intro q hq
      have hq' := hslot.symm.trans hq
      cases hq'
      exact Nat.le_refl _
    case length => exact h.length
    case stands => exact h.stands
    case empty => exact h.empty
  · exact ⟨rfl, by simp only [Channel.publish]; omega, fun _ _ => rfl, fun _ _ => Or.inl⟩

/-! ## What the reader does -/

theorem Good.holding (h : c.Good width) (hne : c.latest ≠ 0) :
    c.Holding (c.pub - 1) c.latest [] := by
  have hpub : 0 < c.pub := by
    by_contra hzero
    exact hne (h.none (by omega))
  obtain ⟨hlatest, hslot⟩ := h.latest hpub
  constructor
  case published => omega
  case num => exact hlatest
  case newest => rwa [hlatest]
  case whole => exact fun _ => rfl

theorem Holding.copy {k : ℕ} {tmp : List UInt32} (h : c.Holding k n tmp) (hg : c.Good width)
    (hlt : tmp.length < width) :
    c.Holding k n (tmp ++ [c.cell (Kind.wide.slot n width + 1 + tmp.length)]) := by
  refine ⟨h.published, h.num, h.newest, ?_⟩
  intro hk
  obtain ⟨hcount, -, -, hwords⟩ := hg.stands _ k hk
  have htmp := h.whole hk
  have hlen := hg.length k hcount
  rw [slot_eq, hwords _ hlt, List.length_append, List.length_singleton, List.take_add_one, ← htmp,
    List.getD_eq_getElem?_getD, List.getElem?_eq_getElem (by omega)]
  rfl

/-- The sequence word proves what was copied, unless all the numbers have been used since. -/
theorem Holding.recheck {k : ℕ} {tmp : List UInt32} (h : c.Holding k n tmp) (hg : c.Good width)
    (hlen : tmp.length = width) (hstands : c.cell (Kind.wide.slot n width) = n)
    (hlap : c.count < k + 2 ^ 32) : tmp = c.value k := by
  have hslot : c.slot (n.toNat % slots) = some k := by
    rw [slot_eq] at hstands
    cases hs : c.slot (n.toNat % slots) with
    | none =>
      have hzero := hg.empty _ (Nat.mod_lt _ (by decide)) hs
      exact absurd (h.num.symm.trans (hstands.symm.trans hzero)) (c.num_ne_zero k)
    | some q =>
      obtain ⟨hlt, -, hval, -⟩ := hg.stands _ q hs
      rcases Nat.lt_or_eq_of_le (h.newest q hs) with hkq | rfl
      · have heq : c.num k = c.num q := by
          rw [← h.num, ← hval, hstands]
        exact absurd heq (c.num_ne hkq (by omega))
      · rfl
  have hk : k < c.count := Nat.lt_of_lt_of_le h.published hg.le
  rw [h.whole hslot, List.take_of_length_le (Nat.le_of_eq ((hg.length k hk).trans hlen.symm))]

end

end Channel

end BloblyEmb.Xcore
