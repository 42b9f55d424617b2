import Mathlib.Algebra.BigOperators.Ring.Finset
import Mathlib.Algebra.Order.BigOperators.Group.Finset
import Mathlib.Tactic.Ring
import BloblyEmb.Fault.Ledger

/-!
# The write budget

How often the store is written over a life: the image a few times for each cycle and each clear, a
snapshot block once for each snapshot taken, and the mark of a released block once for each block
that held one.
-/
namespace BloblyEmb.Fault
namespace Memory
variable {n : ℕ} {c m : Memory n} {seam : Seam} {st : Store}

section
variable {open' : Opening} {given paid : ℕ} {calm : Prop}

/-- The DTCs that keep a snapshot. -/
def keeping (m : Memory n) : ℕ := ∑ i, if (m.slots i).freeze ≠ [] then 1 else 0

/-- The DTCs whose snapshot is due, or taken and not written. -/
def lagging (m : Memory n) : ℕ := ∑ i, if m.Waits i then 1 else 0

/-- What a budget allows. -/
theorem Budget.spent {w : Fin n → ℕ} (hbud : Budget c seam w open' given paid m st calm) :
    images seam.id st ≤ open'.images + paid + 2 * (n * given) + (given * c.keeping + ∑ i, w i) ∧
      snapshots seam.id st ≤ open'.snapshots + (given * c.keeping + ∑ i, w i) ∧
      released seam.id st + open'.snapshots ≤ open'.released + snapshots seam.id st := by
  obtain ⟨tests, fails, snaps, due, hl⟩ := hbud
  have htests : ∑ i, tests i ≤ n * given := by
    have := Finset.sum_le_card_nsmul Finset.univ tests given fun i _ => by
      have := hl.quota.test i
      omega
    simpa using this
  have hfails : ∑ i, fails i ≤ n * given := by
    have := Finset.sum_le_card_nsmul Finset.univ fails given fun i _ => by
      have := hl.quota.fail i
      omega
    simpa using this
  have hsnaps : ∑ i, snaps i ≤ given * c.keeping + ∑ i, w i := by
    rw [keeping, Finset.mul_sum, ← Finset.sum_add_distrib]
    refine Finset.sum_le_sum fun i _ => ?_
    by_cases hf : (c.slots i).freeze = []
    · have := hl.quota.bare i hf
      omega
    · have := hl.quota.snap i
      rw [if_pos hf]
      omega
  have h₁ := hl.images
  have h₂ := hl.snapshots
  have h₃ := hl.released
  refine ⟨?_, ?_, ?_⟩ <;> omega

/-- Books can be opened on any memory. -/
theorem Budget.opened (m : Memory n) (st : Store) :
    Budget c seam m.need ⟨images seam.id st + 1, snapshots seam.id st,
      released seam.id st + c.holding st⟩ 1 0 m st m.Shadow := by
  refine ⟨fun _ => 0, fun _ => 0, fun _ => 0, 1,
    ⟨fun i => ?_, fun i => ?_, fun i => ?_, fun _ _ => rfl⟩, ?_, ?_, ?_, fun h => by cases h⟩
  · simp only [untested]
    split <;> omega
  · simp only [unfailed]
    split <;> omega
  · omega
  · simp
  · simp
  · simp

/-- Books on a memory whose image the store holds. -/
theorem Budget.current (ht : m.Tidy) (hs : m.Shadow) :
    Budget c seam (fun i => if m.Waits i then 1 else 0)
      ⟨images seam.id st, snapshots seam.id st, released seam.id st + c.holding st⟩
      m.cycleActive.toNat 0 m st m.Shadow := by
  refine ⟨fun _ => 0, fun _ => 0, fun _ => 0, 0, ⟨fun i => ?_, fun i => ?_, fun i => ?_,
    fun _ _ => rfl⟩, ?_, ?_, ?_, fun _ => hs⟩
  · simp only [untested]
    cases m.cycleActive <;> simp
    split <;> omega
  · simp only [unfailed]
    cases m.cycleActive <;> simp
    split <;> omega
  · have := (need_bounds ht i).2
    cases ha : m.cycleActive with
    | true =>
      simp only [Bool.toNat_true]
      omega
    | false =>
      have hneed : m.need i = if m.Waits i then 1 else 0 := by
        simp only [Memory.need, ha, needOf, Bool.false_eq_true, if_false, decide_eq_true_eq]
      rw [hneed]
      simp
  · simp
  · simp
  · simp

/-! ## One step of a life -/

theorem InOrder.consume (h : InOrder c seam m st) (i : Fin n) (r : Report) :
    InOrder c seam (m.consume i r) st :=
  ⟨h.whole.of_frames (sameFrame_setSlot (.consume _ _ _ _)) rfl rfl, tidy_consume h.tidy i r⟩

/-- A clear goes on in the cycle it came in. -/
theorem active_clear (m : Memory n) (st : Store) (group : UInt32) :
    (m.clear st group).2.1.cycleActive = m.cycleActive := by
  have hstores := m.persistClear_stores st group
  rcases m.clear_cases st group with ⟨-, heq⟩ | ⟨-, -, heq⟩ | ⟨-, -, -, heq⟩
  · rw [heq]
  · rw [heq]
    exact hstores.cycleActive
  · rw [heq]
    exact ((m.persistClear st group).2.1.framed_clearNamed group).cycleActive.trans
      hstores.cycleActive

theorem InOrder.cycleStart (h : InOrder c seam m st) :
    InOrder c seam m.cycleStart st ∧ Costs m m.cycleStart 1 := by
  obtain ⟨ht, hcost⟩ := tidy_cycleStart h.whole.toLinked h.tidy
  exact ⟨⟨h.whole.cycleStart, ht⟩, hcost⟩

theorem InOrder.cycleEnd (h : InOrder c seam m st) :
    InOrder c seam m.cycleEnd st ∧ Costs m m.cycleEnd 0 := by
  obtain ⟨ht, hcost⟩ := tidy_cycleEnd h.whole.toLinked h.tidy
  exact ⟨⟨h.whole.cycleEnd, ht⟩, hcost⟩

theorem inOrder_boot (hb : c.Blocks seam.id) (hs : m.store = some seam) (hd : m.Distinct)
    (hcfg : ∀ i, SameBlocks (c.slots i) (checkBlocks (m.slots i)))
    (hok : IsImage (storedImage st seam) → c.StoredOk (fun _ _ => True) (storedImage st seam)
      st.blocks) :
    InOrder c seam (Node.boot m st).mem st ∧ ∀ i, ¬(Node.boot m st).mem.Waits i := by
  obtain ⟨ht, hw⟩ := tidy_boot hb hs hd hcfg hok
  exact ⟨⟨whole_boot hb hs hcfg hok, ht⟩, hw⟩

/-- A reset in a life. -/
theorem InOrder.reset (hb : c.Blocks seam.id) (hcheck : ∀ i, ∃ s, c.slots i = checkBlocks s)
    (h : InOrder c seam m st) :
    InOrder c seam (Node.boot m st).mem st ∧ ∀ i, ¬(Node.boot m st).mem.Waits i := by
  refine inOrder_boot hb h.whole.store (fun i j hij => ?_) (fun i => ?_) h.whole.stored
  · rw [(h.whole.config i).dtc, (h.whole.config j).dtc] at hij
    exact hb.distinct i j hij
  · obtain ⟨s, hs⟩ := hcheck i
    have hcfg := h.whole.config i
    rw [hs] at hcfg ⊢
    exact Node.sameBlocks_check hcfg

end

end Memory

namespace Node
variable {n : ℕ}
open Memory

/-- One step of a life in which power comes back to a new cycle. -/
def drive (x : Node n) : Op n → Node n
  | .reset => (x.step .reset).step .cycleStart
  | op => x.step op

/-- What happened to a memory: the cycles begun, the clears done, the changes of the setting, and the
flushes. -/
structure Traffic where
  cycles : ℕ
  clears : ℕ
  settings : ℕ
  flushes : ℕ

def Traffic.count (t : Traffic) (x : Node n) : Op n → Traffic
  | .cycleStart | .reset => { t with cycles := t.cycles + 1 }
  | .clear group =>
    if (x.mem.clear x.store group).1 = 0 then { t with clears := t.clears + 1 } else t
  | .setSetting on => if on = x.mem.settingOff then { t with settings := t.settings + 1 } else t
  | .persist _ flush => if flush then { t with flushes := t.flushes + 1 } else t
  | _ => t

/-- A life from `x` on, and its traffic; a cycle that is open at the start counts. -/
def lived (x : Node n) (ops : List (Op n)) : Node n × Traffic :=
  ops.foldl (fun y op => (y.1.drive op, y.2.count y.1 op))
    (x, ⟨x.mem.cycleActive.toNat, 0, 0, 0⟩)

section
variable {m : Memory n} {seam : Seam}

/-- What a life keeps to: every end of a cycle follows a beginning. -/
def Keeping (c : Memory n) (seam : Seam) (w : Fin n → ℕ) (open' : Opening) (y : Node n × Traffic) :
    Prop :=
  InOrder c seam y.1.mem y.1.store ∧ ∃ ends,
    ends + y.1.mem.cycleActive.toNat ≤ y.2.cycles ∧
    Budget c seam w open' (y.2.cycles + y.2.clears)
      (y.2.cycles + ends + y.2.clears + y.2.settings + y.2.flushes) y.1.mem y.1.store
      y.1.mem.Shadow

theorem Keeping.step {c : Memory n} {w : Fin n → ℕ} {open' : Opening} {y : Node n × Traffic}
    (hb : c.Blocks seam.id) (hcheck : ∀ i, ∃ s, c.slots i = checkBlocks s)
    (h : Keeping c seam w open' y) (op : Op n) :
    Keeping c seam w open' (y.1.drive op, y.2.count y.1 op) := by
  obtain ⟨x, t⟩ := y
  obtain ⟨hin, ends, hends, hbud⟩ := h
  dsimp only at hin hends hbud
  cases op with
  | consume i r => exact ⟨hin.consume i r, ends, hends, hbud.consume hin.tidy i r⟩
  | capture dids =>
    obtain ⟨hin', hbud'⟩ := hbud.capture hin dids
    refine ⟨hin', ends, ?_, hbud'⟩
    have hact : (x.mem.capture dids).cycleActive = x.mem.cycleActive :=
      (x.mem.taken_capture dids).2.cycleActive
    simp only [drive, Node.step, Traffic.count, hact]
    exact hends
  | cycleStart =>
    obtain ⟨hin', hcost⟩ := hin.cycleStart
    refine ⟨hin', ends, ?_, (hbud.change hcost).cast ?_ ?_⟩
    · have hact : x.mem.cycleStart.cycleActive = true := rfl
      simp only [drive, Node.step, Traffic.count, hact, Bool.toNat_true]
      omega
    · simp only [Traffic.count]
      omega
    · simp only [Traffic.count]
      omega
  | cycleEnd =>
    obtain ⟨hin', hcost⟩ := hin.cycleEnd
    have hact := x.mem.cycleActive_cycleEnd
    cases ha : x.mem.cycleActive with
    | true =>
      refine ⟨hin', ends + 1, ?_, (hbud.change hcost).cast ?_ ?_⟩
      · simp only [drive, Node.step, Traffic.count, hact, Bool.toNat_false]
        rw [ha, Bool.toNat_true] at hends
        exact hends
      · rfl
      · simp only [Traffic.count]
        omega
    | false =>
      have heq : x.mem.cycleEnd = { x.mem with ending := false } := by
        simp [Memory.cycleEnd, ha]
      have hsame : InOrder c seam { x.mem with ending := false } x.store ∧
          Budget c seam w open' (t.cycles + t.clears)
            (t.cycles + ends + t.clears + t.settings + t.flushes) { x.mem with ending := false }
            x.store (Shadow { x.mem with ending := false }) :=
        hbud.unchanged hin rfl rfl rfl rfl rfl rfl rfl rfl
      simp only [Keeping, drive, Node.step, Traffic.count, heq]
      exact ⟨hsame.1, ends, hends, hsame.2⟩
  | endCycleAfter now grace =>
    simp only [Keeping, drive, Node.step, Traffic.count, Memory.endCycleAfter]
    split
    · exact ⟨hin, ends, hends, hbud⟩
    · have hsame : InOrder c seam { x.mem with ending := true, endAt := now + grace } x.store ∧
          Budget c seam w open' (t.cycles + t.clears)
            (t.cycles + ends + t.clears + t.settings + t.flushes)
            { x.mem with ending := true, endAt := now + grace } x.store
            (Shadow { x.mem with ending := true, endAt := now + grace }) :=
        hbud.unchanged hin rfl rfl rfl rfl rfl rfl rfl rfl
      exact ⟨hsame.1, ends, hends, hsame.2⟩
  | clear group =>
    obtain ⟨hin', hbud'⟩ := hbud.clear hb hin group
    have hact := active_clear x.mem x.store group
    by_cases hcode : (x.mem.clear x.store group).1 = 0
    · simp only [Keeping, drive, Node.step, Traffic.count, if_pos hcode] at hbud' ⊢
      refine ⟨hin', ends, ?_, hbud'.cast ?_ ?_⟩
      · rw [hact]
        exact hends
      · omega
      · omega
    · simp only [Keeping, drive, Node.step, Traffic.count, if_neg hcode] at hbud' ⊢
      refine ⟨hin', ends, ?_, hbud'⟩
      rw [hact]
      exact hends
  | setSetting on =>
    obtain ⟨ht, hcost, hreal⟩ := tidy_setSetting hin.tidy on
    have hact : (x.mem.setSetting on).cycleActive = x.mem.cycleActive := by
      simp only [Memory.setSetting]
      split <;> rfl
    have hin' : InOrder c seam (x.mem.setSetting on) x.store := ⟨hin.whole.setSetting on, ht⟩
    by_cases hon : on = x.mem.settingOff
    · simp only [Keeping, drive, Node.step, Traffic.count, if_pos hon]
      refine ⟨hin', ends, ?_, (hbud.change hcost).cast ?_ ?_⟩
      · rw [hact]
        exact hends
      · rfl
      · omega
    · simp only [Keeping, drive, Node.step, Traffic.count, if_neg hon]
      rcases hreal with (⟨rfl, hoff⟩ | ⟨rfl, hoff⟩) | heq
      · exact absurd hoff.symm hon
      · exact absurd hoff.symm hon
      · rw [heq]
        exact ⟨hin, ends, hends, hbud⟩
  | persist now flush =>
    obtain ⟨hin', hbud'⟩ := hbud.persist hb hin now flush
    have hact := (x.mem.persist_stores x.store now flush).cycleActive
    by_cases hflush : flush = true
    · simp only [Keeping, drive, Node.step, Traffic.count, if_pos hflush] at hbud' ⊢
      refine ⟨hin', ends, ?_, hbud'.cast rfl ?_⟩
      · rw [hact]
        exact hends
      · omega
    · simp only [Keeping, drive, Node.step, Traffic.count, if_neg hflush] at hbud' ⊢
      refine ⟨hin', ends, ?_, hbud'⟩
      rw [hact]
      exact hends
  | reset =>
    -- power comes back to nothing that waits, and to a new cycle
    obtain ⟨hin', hw⟩ := hin.reset hb hcheck
    have hin'' := hin'.cycleStart.1
    have hcost : Costs x.mem (boot x.mem x.store).mem.cycleStart 1 :=
      .of_waits hin.tidy hin''.tidy fun i hwait => absurd (waits_cycleStart hin'.whole.toLinked hwait)
        (hw i)
    refine ⟨hin'', ends, ?_, (hbud.change hcost).cast ?_ ?_⟩
    · have hact : (boot x.mem x.store).mem.cycleStart.cycleActive = true := rfl
      simp only [drive, Node.step, Traffic.count, hact, Bool.toNat_true]
      omega
    · simp only [Traffic.count]
      omega
    · simp only [Traffic.count]
      omega

/-- An operation keeps memory and store in order. -/
theorem inOrder_step {c : Memory n} (hb : c.Blocks seam.id)
    (hcheck : ∀ i, ∃ s, c.slots i = checkBlocks s) {x : Node n} (h : InOrder c seam x.mem x.store)
    (op : Op n) : InOrder c seam (x.step op).mem (x.step op).store := by
  have hdrive : InOrder c seam (x.drive op).mem (x.drive op).store := by
    have hopen : Keeping c seam x.mem.need ⟨images seam.id x.store + 1, snapshots seam.id x.store,
        released seam.id x.store + c.holding x.store⟩ (x, ⟨1, 0, 0, 0⟩) :=
      ⟨h, 0, (Nat.zero_add _).le.trans (Bool.toNat_le _), (Budget.opened x.mem x.store).pay 1⟩
    exact (hopen.step hb hcheck op).1
  cases op with
  | reset => exact (h.reset hb hcheck).1
  | _ => exact hdrive

/-- Over its lives a memory and its store stay in order. -/
theorem inOrder_lives (hc : m.Configured) (hp : Separate m) (hs : m.store = some seam) (st : Store)
    (hst : Earlier (storedImage st seam)) (es : List (Life n))
    (hes : ∀ m', .start m' ∈ es → KeepsBlocks m m') :
    InOrder m.checkSlots seam (Trace.final live (boot m st) es).mem
        (Trace.final live (boot m st) es).store ∧
      Sound m seam (Trace.final live (boot m st) es) := by
  have hb := blocks_checkSlots hc hp hs
  induction es using List.reverseRecOn with
  | nil =>
    refine ⟨(inOrder_boot hb hs hc.distinct (fun i => .refl _) fun hi => ?_).1,
      sound_boot hs (fun _ => rfl) (fun _ _ => rfl) hc.distinct st⟩
    obtain ⟨hv, hone⟩ := hst hi
    exact ⟨hone, fun hno => absurd hv hno⟩
  | append_singleton es e ih =>
    obtain ⟨hin, hsound⟩ := ih fun m' hm' => hes m' (List.mem_append_left _ hm')
    rw [Trace.final_snoc]
    cases e with
    | op op =>
      exact ⟨inOrder_step hb (fun i => ⟨m.slots i, rfl⟩) hin op, sound_step hsound hc hs op⟩
    | start m' =>
      have hk := hes m' (by simp)
      have hd : m'.Distinct := fun i j hij => by
        rw [(hk.slots i).dtc, (hk.slots j).dtc] at hij
        exact hc.distinct i j hij
      exact ⟨(inOrder_boot hb (hk.store.trans hs) hd (fun i => sameBlocks_checkBlocks (hk.slots i))
          hin.whole.stored).1,
        sound_boot (hk.store.trans hs) (fun i => (hk.slots i).dtc) (fun i => (hk.slots i).blockId)
          hd _⟩

/-- A memory whose image the store holds. -/
theorem shadow_current {c : Memory n} {x : Node n} (hb : c.Blocks seam.id)
    (h : InOrder c seam x.mem x.store) (hsound : Sound m seam x)
    (hcur : storedImage x.store seam = x.mem.image none) : x.mem.Shadow := by
  refine .of_image ?_ fun i hne => ?_
  · rw [hsound.known, hcur, known_of_image (x.mem.isImage_image none)]
  · obtain ⟨b, hd⟩ := Option.ne_none_iff_exists'.mp hne
    obtain ⟨k, e, hk, he, hdur, rfl⟩ := durableBlock_eq hd
    obtain ⟨e', he', hs⟩ := (h.whole.entry i k).mp hk
    rw [he] at he'
    cases he'
    subst hs
    have hf := h.whole.frames k e he
    have hn : x.mem.Narrow := fun i => by
      rw [(h.whole.config i).dtc]
      exact hb.narrow i
    -- the image claims the entry's block, so the memory does
    have hbytes : c.recClaim (x.mem.image none) e.slot = some ((x.mem.slots e.slot).blockId e.blk) := by
      have hflag : Has (x.mem.flagByte e.slot) imgSnapshot := by
        rw [x.mem.flagByte_snapshot, hd]
        rfl
      have hrec : recAt (x.mem.image none) e.slot 3 = x.mem.flagByte e.slot ∧
          rdBe16 (recAt (x.mem.image none) e.slot 8) (recAt (x.mem.image none) e.slot 9) =
            (x.mem.slots e.slot).blockId e.blk := by
        rw [recAt_image _ _ _ (by decide), recAt_image _ _ _ (by decide),
          recAt_image _ _ _ (by decide)]
        refine ⟨rfl, (rdBe16_be16 _).trans ?_⟩
        rw [claimedId, hd]
      rw [recClaim, hrec.1, hrec.2, if_neg (not_not.mpr hflag), if_neg (x.mem.version_image none)]
    have hi : IsImage (storedImage x.store seam) := hcur ▸ x.mem.isImage_image none
    obtain ⟨j, b', hdj, hid, hclaim⟩ := h.whole.claims hi e.slot
      (by rw [hcur, records_image]; exact e.slot.isLt) _ (by rw [hcur]; exact hbytes)
    rw [hcur] at hdj
    have hown : recDtc (x.mem.image none) e.slot = (c.slots e.slot).dtc :=
      ((built_image hn none).dtc e.slot).trans (h.whole.config e.slot).dtc
    obtain rfl := hb.distinct _ _ (hdj.trans hown)
    rw [(h.whole.config e.slot).blockId] at hid
    obtain ⟨-, rfl⟩ := hb.inj hf hid
    have hcl := hclaim hf
    exact ⟨by rw [hcl]; rfl, h.whole.readable k e he hdur hcl⟩

/-- In every life that begins with the current image in the store, the writes that the store takes
are within the budget: of images, what cycles, clears, changes of the setting and flushes allow; of
snapshots, one for each cycle and clear of a DTC that keeps one; of marks of released blocks, one for
each snapshot written and each block live at the start. Snapshots that wait at the start are written
besides. -/
theorem write_budget (m : Memory n) (hc : m.Configured) (hp : Separate m) (seam : Seam)
    (hs : m.store = some seam) (st : Store) (hst : Earlier (storedImage st seam))
    (es : List (Life n)) (hes : ∀ m', .start m' ∈ es → KeepsBlocks m m') (x : Node n)
    (hx : x = Trace.final live (boot m st) es)
    (hcur : storedImage x.store seam = x.mem.image none) (ops : List (Op n)) :
    images seam.id (lived x ops).1.store ≤ images seam.id x.store +
        ((lived x ops).2.cycles * (2 + 2 * n + x.mem.keeping) +
          (lived x ops).2.clears * (1 + 2 * n + x.mem.keeping) + (lived x ops).2.settings +
          (lived x ops).2.flushes + x.mem.lagging) ∧
      snapshots seam.id (lived x ops).1.store ≤ snapshots seam.id x.store +
        (((lived x ops).2.cycles + (lived x ops).2.clears) * x.mem.keeping + x.mem.lagging) ∧
      released seam.id (lived x ops).1.store + snapshots seam.id x.store ≤
        released seam.id x.store + snapshots seam.id (lived x ops).1.store +
          x.mem.holding x.store := by
  have hb := blocks_checkSlots hc hp hs
  have hlives := inOrder_lives hc hp hs st hst es hes
  rw [← hx] at hlives
  obtain ⟨hin, hsound⟩ := hlives
  have hkeep : m.checkSlots.keeping = x.mem.keeping := by
    simp only [keeping]
    refine Finset.sum_congr rfl fun i _ => ?_
    rw [(hin.whole.config i).freeze]
  have hhold : m.checkSlots.holding x.store = x.mem.holding x.store := by
    simp only [holding, holds]
    refine Finset.sum_congr rfl fun i _ => ?_
    rw [(hin.whole.config i).freeze, (hin.whole.config i).blockId, (hin.whole.config i).blockId]
  have hopen : Keeping m.checkSlots seam (fun i => if x.mem.Waits i then 1 else 0)
      ⟨images seam.id x.store, snapshots seam.id x.store,
        released seam.id x.store + m.checkSlots.holding x.store⟩
      (x, ⟨x.mem.cycleActive.toNat, 0, 0, 0⟩) := by
    have hshadow := shadow_current hb hin hsound hcur
    exact ⟨hin, 0, (Nat.zero_add _).le,
      ((Budget.current hin.tidy hshadow).pay x.mem.cycleActive.toNat).cast (by simp) (by simp)⟩
  have hrun : Keeping m.checkSlots seam (fun i => if x.mem.Waits i then 1 else 0)
      ⟨images seam.id x.store, snapshots seam.id x.store,
        released seam.id x.store + m.checkSlots.holding x.store⟩ (lived x ops) :=
    List.foldlRecOn ops _ hopen fun y hy op _ => hy.step hb (fun i => ⟨m.slots i, rfl⟩) op
  obtain ⟨-, ends, hends, hbud⟩ := hrun
  obtain ⟨h₁, h₂, h₃⟩ := hbud.spent
  rw [hkeep] at h₁ h₂
  rw [hhold] at h₃
  revert h₁ h₂ h₃ hends
  generalize (lived x ops).2 = t
  intro hends h₁ h₂ h₃
  have hsum : t.cycles * (2 + 2 * n + x.mem.keeping) + t.clears * (1 + 2 * n + x.mem.keeping) =
      2 * t.cycles + t.clears + 2 * (n * (t.cycles + t.clears)) +
        (t.cycles + t.clears) * x.mem.keeping := by
    ring
  refine ⟨?_, h₂, by dsimp only at h₃; omega⟩
  rw [hsum]
  simp only [lagging]
  dsimp only at h₁
  omega

end

/-- A store that refuses the snapshot twice, and takes all else. -/
def reluctantStore : Store := ⟨fun _ => [], fun k => k = 1 ∨ 3 ≤ k, []⟩

/-- A failure whose snapshot the store refuses, while it takes the image, also at the cycle's end. -/
def refusedLife : List (Life 1) :=
  [.op .cycleStart, .op (.consume 0 ⟨0, true, 1, 1⟩), .op (.capture [(0xF400, [7, 8])]),
    .op (.persist 0 false), .op .cycleEnd, .op (.persist 0 false)]

/-- The snapshot that waited at the start is written although no cycle began and nothing was
cleared. -/
theorem write_budget_waiting :
    storedImage (Trace.final live (boot snapFault reluctantStore) refusedLife).store ⟨1, 0⟩ =
        (Trace.final live (boot snapFault reluctantStore) refusedLife).mem.image none ∧
      (lived (Trace.final live (boot snapFault reluctantStore) refusedLife)
        [.persist 0 false]).2.cycles = 0 ∧
      (lived (Trace.final live (boot snapFault reluctantStore) refusedLife)
        [.persist 0 false]).2.clears = 0 ∧
      snapshots 1 (Trace.final live (boot snapFault reluctantStore) refusedLife).store <
        snapshots 1 (lived (Trace.final live (boot snapFault reluctantStore) refusedLife)
          [.persist 0 false]).1.store := by
  decide +kernel

/-- A DTC whose snapshot and image are stored, in a cycle. -/
def storedLife : List (Life 1) := snapLife.take 4

/-- A second cycle in which the DTC fails again, a clear, and a power cycle. -/
def cycleOps : List (Op 1) :=
  [.cycleStart, .persist 0 false, .consume 0 ⟨0, true, 2, 2⟩, .persist 0 false, .clear 0xFFFFFF,
    .persist 0 false, .reset, .persist 0 false]

/-- Three more images are written where nineteen are allowed, and the stored snapshot is released. -/
theorem write_budget_cycleOps :
    images 1 (lived (Trace.final live (boot snapFault blankStore) storedLife) cycleOps).1.store ≤
        1 + 19 ∧
      images 1 (lived (Trace.final live (boot snapFault blankStore) storedLife)
        cycleOps).1.store = 4 ∧
      released 1 (lived (Trace.final live (boot snapFault blankStore) storedLife)
        cycleOps).1.store = 1 := by
  obtain ⟨h, -, -⟩ := write_budget snapFault configured_snapFault separate_snapFault ⟨1, 0⟩ rfl
    blankStore (fun hi => absurd hi (by decide)) storedLife (by simp [storedLife, snapLife])
    (Trace.final live (boot snapFault blankStore) storedLife) rfl (by decide +kernel) cycleOps
  have hcycles : (lived (Trace.final live (boot snapFault blankStore) storedLife)
      cycleOps).2.cycles = 3 := by decide +kernel
  have hclears : (lived (Trace.final live (boot snapFault blankStore) storedLife)
      cycleOps).2.clears = 1 := by decide +kernel
  have hsettings : (lived (Trace.final live (boot snapFault blankStore) storedLife)
      cycleOps).2.settings = 0 := by decide +kernel
  have hflushes : (lived (Trace.final live (boot snapFault blankStore) storedLife)
      cycleOps).2.flushes = 0 := by decide +kernel
  have hkeeping : (Trace.final live (boot snapFault blankStore) storedLife).mem.keeping = 1 := by
    decide +kernel
  have hlagging : (Trace.final live (boot snapFault blankStore) storedLife).mem.lagging = 0 := by
    decide +kernel
  have himages : images 1 (Trace.final live (boot snapFault blankStore) storedLife).store = 1 := by
    decide +kernel
  rw [hcycles, hclears, hsettings, hflushes, hkeeping, hlagging] at h
  refine ⟨h.trans ?_, by decide +kernel, by decide +kernel⟩
  exact (congrArg (· + 19) himages).le

end Node

end BloblyEmb.Fault
