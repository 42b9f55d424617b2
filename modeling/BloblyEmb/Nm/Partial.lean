import BloblyEmb.Lib.Bits
import BloblyEmb.Nm.Machine
import Mathlib.Data.List.Dedup
import Mathlib.Data.List.Induction
import Mathlib.Data.Nat.Bitwise

/-!
# Demand of partial networks

Each node asks for partial networks by a mask in its messages; the latest mask of each counts as long
as the node is heard (`comm/nm`, `frame`). The table of masks has a slot for each id that was heard
since the network last slept, as long as there are slots.
-/
namespace BloblyEmb.Network

/-- The mask of a message, if it carries one. -/
def Frame.mask (f : Frame) : UInt64 := if f.cbv &&& cbvPnInfo ≠ 0 then f.pn else 0

namespace Nm

/-- What the table and this node ask for together. -/
def pnAggregate (n : Nm) (now pnLocal : UInt64) : UInt64 :=
  (List.range maxNmNodes).foldl (fun agg i =>
    if n.pnNid i ≠ 0 ∧ now - n.pnSeen i ≤ n.cfg.timeoutUs then agg ||| n.pnMask i else agg) pnLocal

def pnDemanded (n : Nm) (now : UInt64) (idx : Int) (pnLocal : UInt64) : Bool :=
  if idx < 0 ∨ 47 < idx then false
  else n.pnAggregate now pnLocal &&& (1 <<< UInt64.ofNat idx.toNat) ≠ 0

end Nm

/-! ## Runs -/

inductive NodeCall where
  | frame (now : UInt64) (f : Frame)
  | request (now : UInt64)
  | hold (now : UInt64) (on : Bool)
  | release
  | tick (now : UInt64)

def NodeCall.apply (n : Nm) : NodeCall → Nm
  | .frame now f => n.onFrame now f
  | .request now => n.request now
  | .hold now on => n.hold now on
  | .release => n.release
  | .tick now => (n.tick now).1

def NodeCall.time : NodeCall → Option UInt64
  | .frame now _ | .request now | .hold now _ | .tick now => some now
  | .release => none

abbrev Heard := List (UInt64 × Frame)

/-- A node, with the messages that it has heard since it was last asleep. -/
structure Listening where
  node : Nm
  heard : Heard := []
  clock : UInt64 := 0

def Listening.step (s : Listening) (c : NodeCall) : Listening where
  node := c.apply s.node
  heard :=
    if (c.apply s.node).state = .busSleep then []
    else match c with
      | .frame now f => s.heard ++ [(now, f)]
      | _ => s.heard
  clock := c.time.getD s.clock

def listen (cfg : Timings) (cs : List NodeCall) : Listening :=
  cs.foldl Listening.step { node := { cfg := cfg } }

/-- The latest message of a node. -/
def latest (heard : Heard) (nid : UInt8) : Option (UInt64 × Frame) :=
  heard.reverse.find? (·.2.nid == nid)

/-- Somebody asks for a partial network: this node, or one whose latest message is recent. -/
def Demanded (cfg : Timings) (heard : Heard) (now : UInt64) (idx : ℕ) (pnLocal : UInt64) : Prop :=
  pnLocal.toNat.testBit idx = true ∨
  ∃ nid, nid ≠ 0 ∧ ∃ m, latest heard nid = some m ∧
    now.toNat ≤ m.1.toNat + cfg.timeoutUs.toNat ∧ m.2.mask.toNat.testBit idx = true

/-- Each call comes no earlier than the one before it. -/
def Ordered (cs : List NodeCall) : Prop := (cs.filterMap NodeCall.time).Pairwise (· ≤ ·)

/-- The table has a slot for the sender of a message: its own, or a free one. -/
def Fits (n : Nm) (f : Frame) : Prop := f.nid = 0 ∨ (n.pnSlot f.nid).isSome = true

instance (n : Nm) (f : Frame) : Decidable (Fits n f) := inferInstanceAs (Decidable (_ ∨ _))

/-- It has one for every message of a run. -/
def Roomy (cfg : Timings) (cs : List NodeCall) : Prop :=
  ∀ cs₁ now f cs₂, cs = cs₁ ++ .frame now f :: cs₂ → Fits (listen cfg cs₁).node f

/-- No more ids than slots are heard within the timeout. -/
def FewAtATime (cfg : Timings) (heard : Heard) : Prop :=
  ∀ t : ℕ, ((heard.filter fun m => decide (m.2.nid ≠ 0 ∧ t ≤ m.1.toNat ∧
    m.1.toNat ≤ t + cfg.timeoutUs.toNat)).map (·.2.nid)).dedup.length ≤ maxNmNodes

/-! ## The table -/

/-- What a slot holds: the mask and the time of the latest message of its node. -/
structure Table (n : Nm) (heard : Heard) : Prop where
  slot : ∀ i < maxNmNodes, n.pnNid i ≠ 0 → ∃ m, latest heard (n.pnNid i) = some m ∧
    n.pnMask i = m.2.mask ∧ n.pnSeen i = m.1
  all : ∀ m ∈ heard, m.2.nid ≠ 0 → ∃ i < maxNmNodes, n.pnNid i = m.2.nid
  distinct : ∀ i < maxNmNodes, ∀ j < maxNmNodes, n.pnNid i ≠ 0 → n.pnNid i = n.pnNid j → i = j

theorem latest_snoc (heard : Heard) (now : UInt64) (f : Frame) (nid : UInt8) :
    latest (heard ++ [(now, f)]) nid = if f.nid = nid then some (now, f) else latest heard nid := by
  unfold latest
  rw [List.reverse_append, List.reverse_singleton, List.singleton_append, List.find?_cons]
  by_cases h : f.nid = nid
  · simp [h]
  · have hne : (f.nid == nid) = false := by simpa using h
    simp [h, hne]

theorem latest_mem {heard : Heard} {nid : UInt8} {m : UInt64 × Frame}
    (h : latest heard nid = some m) : m ∈ heard ∧ m.2.nid = nid :=
  ⟨List.mem_reverse.mp (List.mem_of_find?_eq_some h), by simpa using List.find?_some h⟩

/-- The slot of a node is within the table; it is the node's own, or free and the node has none. -/
theorem pnSlot_spec {n : Nm} {nid : UInt8} {i : ℕ} (h : n.pnSlot nid = some i) :
    i < maxNmNodes ∧ (n.pnNid i = nid ∨
      n.pnNid i = 0 ∧ ∀ j < maxNmNodes, n.pnNid j ≠ nid) := by
  unfold Nm.pnSlot at h
  cases hown : (List.range maxNmNodes).find? fun i => n.pnNid i == nid with
  | some j =>
    rw [hown, Option.some_or] at h
    cases h
    exact ⟨List.mem_range.mp (List.mem_of_find?_eq_some hown),
      .inl (by simpa using List.find?_some hown)⟩
  | none =>
    rw [hown, Option.none_or] at h
    refine ⟨List.mem_range.mp (List.mem_of_find?_eq_some h),
      .inr ⟨by simpa using List.find?_some h, fun j hj hc => ?_⟩⟩
    exact List.find?_eq_none.mp hown j (List.mem_range.mpr hj) (by simpa using hc)

theorem Table.congr {n n' : Nm} {heard : Heard} (h : Table n heard) (hnid : n'.pnNid = n.pnNid)
    (hmask : n'.pnMask = n.pnMask) (hseen : n'.pnSeen = n.pnSeen) : Table n' heard := by
  constructor
  · rw [hnid, hmask, hseen]
    exact h.slot
  · rw [hnid]
    exact h.all
  · rw [hnid]
    exact h.distinct

theorem table_empty {n : Nm} (h : ∀ i, n.pnNid i = 0) : Table n [] where
  slot := fun i _ hi => absurd (h i) hi
  all := fun m hm => by cases hm
  distinct := fun i _ _ _ hi => absurd (h i) hi

theorem table_setPn {n : Nm} {heard : Heard} (h : Table n heard) {f : Frame} (hf : Fits n f)
    (now : UInt64) : Table (n.setPn f.nid f.mask now) (heard ++ [(now, f)]) := by
  unfold Nm.setPn
  by_cases h0 : f.nid = 0
  · rw [if_pos h0]
    refine ⟨fun i hi hne => ?_, fun m hm hne => ?_, h.distinct⟩
    · obtain ⟨m, hm, h1⟩ := h.slot i hi hne
      refine ⟨m, ?_, h1⟩
      rw [latest_snoc, if_neg (by rw [h0]; exact fun hc => hne hc.symm)]
      exact hm
    · rcases List.mem_append.mp hm with hm | hm
      · exact h.all m hm hne
      · rw [List.mem_singleton.mp hm] at hne
        exact absurd h0 hne
  · rw [if_neg h0]
    obtain ⟨k, hk⟩ := Option.isSome_iff_exists.mp (hf.resolve_left h0)
    obtain ⟨hlt, hslot⟩ := pnSlot_spec hk
    rw [hk]
    -- whoever else has this id has this slot
    have huniq : ∀ i < maxNmNodes, n.pnNid i = f.nid → i = k := by
      intro i hi heq
      rcases hslot with hown | ⟨-, hnone⟩
      · exact h.distinct i hi k hlt (by rw [heq]; exact h0) (by rw [heq, hown])
      · exact absurd heq (hnone i hi)
    refine ⟨fun i hi hne => ?_, fun m hm hne => ?_, fun i hi j hj hne heq => ?_⟩
    · dsimp only at hne ⊢
      by_cases hik : i = k
      · subst hik
        rw [Function.update_self, Function.update_self, Function.update_self, latest_snoc,
          if_pos rfl]
        exact ⟨_, rfl, rfl, rfl⟩
      · rw [Function.update_of_ne hik] at hne ⊢
        rw [Function.update_of_ne hik, Function.update_of_ne hik, latest_snoc,
          if_neg fun hc => hik (huniq i hi hc.symm)]
        exact h.slot i hi hne
    · dsimp only
      by_cases heq : m.2.nid = f.nid
      · exact ⟨k, hlt, by rw [Function.update_self, heq]⟩
      · rcases List.mem_append.mp hm with hm | hm
        · obtain ⟨i, hi, hin⟩ := h.all m hm hne
          refine ⟨i, hi, ?_⟩
          have hik : i ≠ k := by
            rintro rfl
            rcases hslot with hown | ⟨hfree, -⟩
            · exact heq (by rw [← hin, hown])
            · exact hne (by rw [← hin, hfree])
          rw [Function.update_of_ne hik, hin]
        · rw [List.mem_singleton.mp hm] at heq
          exact absurd rfl heq
    · dsimp only at hne heq
      by_cases hik : i = k
      · by_cases hjk : j = k
        · rw [hik, hjk]
        · rw [hik, Function.update_self, Function.update_of_ne hjk] at heq
          exact absurd (huniq j hj heq.symm) hjk
      · rw [Function.update_of_ne hik] at hne heq
        by_cases hjk : j = k
        · rw [hjk, Function.update_self] at heq
          exact absurd (huniq i hi heq) hik
        · rw [Function.update_of_ne hjk] at heq
          exact h.distinct i hi j hj hne heq

/-! ## Calls -/

/-- A call leaves the table, and does not fall asleep. -/
structure Leaves (n n' : Nm) : Prop where
  cfg : n'.cfg = n.cfg
  nid : n'.pnNid = n.pnNid
  mask : n'.pnMask = n.pnMask
  seen : n'.pnSeen = n.pnSeen
  asleep : n'.state = .busSleep → n.state = .busSleep

theorem Leaves.refl (n : Nm) : Leaves n n := ⟨rfl, rfl, rfl, rfl, id⟩

theorem Leaves.trans {n n' n'' : Nm} (h : Leaves n n') (h' : Leaves n' n'') : Leaves n n'' :=
  ⟨h'.cfg.trans h.cfg, h'.nid.trans h.nid, h'.mask.trans h.mask, h'.seen.trans h.seen,
    fun hs => h.asleep (h'.asleep hs)⟩

/-- A change of the wishes and of the activity. -/
theorem leaves_flags {n : Nm} {r held woke : Bool} {now : UInt64} :
    Leaves n { n with requested := r, held := held, activeWoke := woke, lastActivityUs := now } :=
  ⟨rfl, rfl, rfl, rfl, id⟩

theorem leaves_enter (n : Nm) {s : State} (hs : s ≠ .busSleep) (now : UInt64) :
    Leaves n (n.enter s now) :=
  ⟨rfl, if_neg hs, if_neg hs, if_neg hs, fun h => absurd h hs⟩

theorem leaves_wakeForRequest (n : Nm) (now : UInt64) : Leaves n (n.wakeForRequest now) := by
  unfold Nm.wakeForRequest
  split
  · exact leaves_flags.trans
      (leaves_enter { n with activeWoke := true } (s := .repeatMessage) (by decide) now)
  · exact leaves_flags.trans
      (leaves_enter { n with activeWoke := true } (s := .repeatMessage) (by decide) now)
  · exact leaves_enter n (by decide) now
  · exact .refl n

theorem leaves_hold (n : Nm) (now : UInt64) (on : Bool) : Leaves n (n.hold now on) := by
  unfold Nm.hold
  split
  · exact leaves_flags.trans (leaves_wakeForRequest { n with held := true } now)
  · split
    · exact ⟨rfl, rfl, rfl, rfl, id⟩
    · exact .refl n

theorem leaves_onRx (n : Nm) (now : UInt64) :
    Leaves n (n.onRx now) ∧ (n.onRx now).state ≠ .busSleep := by
  unfold Nm.onRx
  dsimp only
  split
  · refine ⟨leaves_flags.trans (leaves_enter { n with lastActivityUs := now, activeWoke := false }
      (s := .repeatMessage) (by decide) now), ?_⟩
    simp [Nm.enter]
  · next h => exact ⟨⟨rfl, rfl, rfl, rfl, id⟩, fun hs => h (.inl hs)⟩

/-- A tick leaves the table, or it empties it and sleeps. -/
theorem advance_leaves (n : Nm) (now : UInt64) :
    Leaves n (n.advance now).1 ∨
    (n.advance now).1.cfg = n.cfg ∧ (n.advance now).1.state = .busSleep ∧
      ∀ i, (n.advance now).1.pnNid i = 0 := by
  unfold Nm.advance
  split
  · left
    dsimp only
    split
    · exact leaves_enter n (by split <;> decide) now
    · exact .refl n
  · left
    dsimp only
    split
    · exact leaves_enter n (by decide) now
    · exact .refl n
  · left
    split
    · exact leaves_enter n (by decide) now
    · split
      · exact leaves_enter n (by decide) now
      · exact .refl n
  · split
    · exact .inl (leaves_enter n (by decide) now)
    · split
      · exact .inr ⟨rfl, rfl, fun i => by simp [Nm.enter]⟩
      · exact .inl (.refl n)
  · exact .inl (.refl n)

theorem tick_leaves (n : Nm) (now : UInt64) :
    Leaves n (n.tick now).1 ∨
    (n.tick now).1.cfg = n.cfg ∧ (n.tick now).1.state = .busSleep ∧
      ∀ i, (n.tick now).1.pnNid i = 0 := by
  have hsame : ∀ m : Nm, (if (n.advance now).2 then
      ({ (n.advance now).1 with txArmed := false, lastTxUs := now, lastActivityUs := now }, true)
      else ((n.advance now).1, false)).1 = m →
      m.cfg = (n.advance now).1.cfg ∧ m.pnNid = (n.advance now).1.pnNid ∧
      m.pnMask = (n.advance now).1.pnMask ∧ m.pnSeen = (n.advance now).1.pnSeen ∧
      m.state = (n.advance now).1.state := by
    intro m hm
    rw [← hm]
    split <;> exact ⟨rfl, rfl, rfl, rfl, rfl⟩
  obtain ⟨hcfg, hnid, hmask, hseen, hstate⟩ := hsame (n.tick now).1 rfl
  rcases advance_leaves n now with h | ⟨h1, h2, h3⟩
  · left
    exact ⟨hcfg.trans h.cfg, hnid.trans h.nid, hmask.trans h.mask, hseen.trans h.seen,
      fun hs => h.asleep (hstate ▸ hs)⟩
  · right
    exact ⟨hcfg.trans h1, hstate.trans h2, fun i => by rw [hnid]; exact h3 i⟩

theorem onFrame_awake (n : Nm) (now : UInt64) (f : Frame) :
    (n.onFrame now f).state ≠ .busSleep := by
  have hdef : n.onFrame now f =
      if f.cbv &&& cbvRepeatMsgRequest ≠ 0 ∧
          ((n.onRx now).setPn f.nid f.mask now).state ≠ .repeatMessage then
        ((n.onRx now).setPn f.nid f.mask now).enter .repeatMessage now
      else (n.onRx now).setPn f.nid f.mask now := rfl
  rw [hdef]
  split
  · simp [Nm.enter]
  · rw [(setPn_frame now (n.onRx now) f.nid f.mask).2.2.1]
    exact (leaves_onRx n now).2

theorem heard_frame (s : Listening) (now : UInt64) (f : Frame) :
    (s.step (.frame now f)).heard = s.heard ++ [(now, f)] := if_neg (onFrame_awake s.node now f)

/-- A message goes into the table. -/
theorem onFrame_table {n : Nm} {heard : Heard} (h : Table n heard) {f : Frame} (hf : Fits n f)
    (now : UInt64) : Table (n.onFrame now f) (heard ++ [(now, f)]) ∧
      (n.onFrame now f).cfg = n.cfg := by
  obtain ⟨hrx, -⟩ := leaves_onRx n now
  have hrt : Table (n.onRx now) heard := h.congr hrx.nid hrx.mask hrx.seen
  have hfit : Fits (n.onRx now) f := by
    unfold Fits Nm.pnSlot
    rw [hrx.nid]
    exact hf
  have hset := table_setPn hrt hfit now
  obtain ⟨hkept, -⟩ := setPn_frame now (n.onRx now) f.nid f.mask
  have hdef : n.onFrame now f =
      if f.cbv &&& cbvRepeatMsgRequest ≠ 0 ∧
          ((n.onRx now).setPn f.nid f.mask now).state ≠ .repeatMessage then
        ((n.onRx now).setPn f.nid f.mask now).enter .repeatMessage now
      else (n.onRx now).setPn f.nid f.mask now := rfl
  rw [hdef]
  split
  · have he := leaves_enter ((n.onRx now).setPn f.nid f.mask now) (s := .repeatMessage)
      (by decide) now
    exact ⟨hset.congr he.nid he.mask he.seen, he.cfg.trans (hkept.cfg.trans hrx.cfg)⟩
  · exact ⟨hset, hkept.cfg.trans hrx.cfg⟩

/-! ## Runs -/

structure Listening.Inv (cfg : Timings) (s : Listening) : Prop where
  cfg : s.node.cfg = cfg
  table : Table s.node s.heard
  asleep : s.node.state = .busSleep → s.heard = []
  past : ∀ m ∈ s.heard, m.1 ≤ s.clock

theorem Listening.Inv.step {cfg : Timings} {s : Listening} (h : s.Inv cfg) (c : NodeCall)
    (htime : ∀ now, c.time = some now → s.clock ≤ now)
    (hfits : ∀ now f, c = .frame now f → Fits s.node f) : (s.step c).Inv cfg := by
  have hlater : s.clock ≤ (s.step c).clock := by
    unfold Listening.step
    cases hc : c.time with
    | none => exact UInt64.le_refl _
    | some now => exact htime now hc
  -- a call that leaves the table leaves what was heard
  have hleaves : ∀ n', c.apply s.node = n' → (∀ now f, c ≠ .frame now f) → Leaves s.node n' →
      (s.step c).Inv cfg := by
    intro n' hn' hne hlv
    have hheard : (s.step c).heard = s.heard := by
      unfold Listening.step
      dsimp only
      split
      · next hs => exact (h.asleep (hlv.asleep (by rw [← hn']; exact hs))).symm
      · cases c with
        | frame now f => exact absurd rfl (hne now f)
        | request now => rfl
        | hold now on => rfl
        | release => rfl
        | tick now => rfl
    have hnode : (s.step c).node = n' := hn'
    refine ⟨?_, ?_, fun hs => ?_, fun m hm => ?_⟩
    · rw [hnode, hlv.cfg]
      exact h.cfg
    · rw [hnode, hheard]
      exact h.table.congr hlv.nid hlv.mask hlv.seen
    · rw [hheard]
      rw [hnode] at hs
      exact h.asleep (hlv.asleep hs)
    · rw [hheard] at hm
      exact UInt64.le_trans (h.past m hm) hlater
  cases c with
  | request now =>
    exact hleaves _ rfl (fun _ _ hc => by cases hc) (leaves_flags.trans
      (leaves_wakeForRequest { s.node with requested := true } now))
  | hold now on => exact hleaves _ rfl (fun _ _ hc => by cases hc) (leaves_hold s.node now on)
  | release => exact hleaves _ rfl (fun _ _ hc => by cases hc) ⟨rfl, rfl, rfl, rfl, id⟩
  | tick now =>
    rcases tick_leaves s.node now with hlv | ⟨hcfg, hasleep, hempty⟩
    · exact hleaves _ rfl (fun _ _ hc => by cases hc) hlv
    · have hheard : (s.step (.tick now)).heard = [] := if_pos hasleep
      refine ⟨hcfg.trans h.cfg, ?_, fun _ => hheard, fun m hm => ?_⟩
      · rw [hheard]
        exact table_empty hempty
      · rw [hheard] at hm
        cases hm
  | frame now f =>
    obtain ⟨htable, hcfg⟩ := onFrame_table h.table (hfits now f rfl) now
    have hawake := onFrame_awake s.node now f
    have hheard := heard_frame s now f
    refine ⟨hcfg.trans h.cfg, ?_, fun hs => absurd hs hawake, fun m hm => ?_⟩
    · rw [hheard]
      exact htable
    · rw [hheard] at hm
      rcases List.mem_append.mp hm with hm | hm
      · exact UInt64.le_trans (h.past m hm) hlater
      · rw [List.mem_singleton.mp hm]
        exact UInt64.le_refl _

theorem listen_snoc (cfg : Timings) (cs : List NodeCall) (c : NodeCall) :
    listen cfg (cs ++ [c]) = (listen cfg cs).step c := by
  unfold listen
  rw [List.foldl_append, List.foldl_cons, List.foldl_nil]

/-- The clock shows the time of some call, if one had a time. -/
theorem clock_listen (cfg : Timings) (cs : List NodeCall) :
    (listen cfg cs).clock = 0 ∨ (listen cfg cs).clock ∈ cs.filterMap NodeCall.time := by
  induction cs using List.reverseRecOn with
  | nil => exact .inl rfl
  | append_singleton cs c ih =>
    rw [listen_snoc, List.filterMap_append]
    change c.time.getD (listen cfg cs).clock = 0 ∨ c.time.getD (listen cfg cs).clock ∈ _
    cases hc : c.time with
    | none => exact ih.imp_right (List.mem_append_left _)
    | some now => exact .inr (List.mem_append_right _ (by simp [hc]))

theorem inv_listen (cfg : Timings) {cs : List NodeCall} (ho : Ordered cs) (hr : Roomy cfg cs) :
    (listen cfg cs).Inv cfg := by
  induction cs using List.reverseRecOn with
  | nil => exact ⟨rfl, table_empty fun _ => rfl, fun _ => rfl, fun m hm => by cases hm⟩
  | append_singleton cs c ih =>
    unfold Ordered at ho
    rw [List.filterMap_append, List.pairwise_append] at ho
    obtain ⟨ho, -, hlast⟩ := ho
    have hih := ih ho fun cs₁ now f cs₂ he => hr cs₁ now f (cs₂ ++ [c]) (by rw [he]; simp)
    rw [listen_snoc]
    refine hih.step c (fun now hn => ?_) fun now f hc => hr cs now f [] (by rw [hc])
    rcases clock_listen cfg cs with h0 | hin
    · rw [h0]
      exact UInt64.zero_le
    · exact hlast _ hin _ (by simp [hn])

/-! ## Demand -/

theorem testBit_aggregate (n : Nm) (now pnLocal : UInt64) (k : ℕ) :
    (n.pnAggregate now pnLocal).toNat.testBit k = true ↔ pnLocal.toNat.testBit k = true ∨
      ∃ i < maxNmNodes, n.pnNid i ≠ 0 ∧ now - n.pnSeen i ≤ n.cfg.timeoutUs ∧
        (n.pnMask i).toNat.testBit k = true := by
  have hfold : ∀ (l : List ℕ) (agg : UInt64),
      (l.foldl (fun agg i => if n.pnNid i ≠ 0 ∧ now - n.pnSeen i ≤ n.cfg.timeoutUs then
        agg ||| n.pnMask i else agg) agg).toNat.testBit k = true ↔
      agg.toNat.testBit k = true ∨ ∃ i ∈ l, n.pnNid i ≠ 0 ∧
        now - n.pnSeen i ≤ n.cfg.timeoutUs ∧ (n.pnMask i).toNat.testBit k = true := by
    intro l
    induction l with
    | nil => simp
    | cons i l ih =>
      intro agg
      rw [List.foldl_cons, ih]
      split
      · next hc =>
        rw [UInt64.toNat_or, Nat.testBit_or, Bool.or_eq_true, or_assoc]
        simp [hc.1, hc.2]
      · next hc =>
        constructor
        · rintro (h | ⟨j, hj, h⟩)
          · exact .inl h
          · exact .inr ⟨j, List.mem_cons_of_mem _ hj, h⟩
        · rintro (h | ⟨j, hj, h⟩)
          · exact .inl h
          · rcases List.mem_cons.mp hj with rfl | hj
            · exact absurd ⟨h.1, h.2.1⟩ hc
            · exact .inr ⟨j, hj, h⟩
  rw [Nm.pnAggregate, hfold]
  simp only [List.mem_range]

def crowdTimings : Timings where
  msgCycleUs := 100
  timeoutUs := 1000
  repeatUs := 200
  waitSleepUs := 500

/-- A message that asks for the first partial network. -/
def asking (nid : ℕ) : Frame where
  nid := UInt8.ofNat nid
  cbv := cbvPnInfo
  pn := 1

/-- A node that stays awake hears as many nodes as there are slots. -/
def benchFirst : List NodeCall :=
  .request 0 :: (List.range 32).map fun k => .frame 1 (asking (k + 1))

/-- And long after they have fallen silent another one. -/
def benchCrowd : List NodeCall := benchFirst ++ [.frame 5000 (asking 33)]

end BloblyEmb.Network
