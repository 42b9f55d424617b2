import BloblyEmb.Lib.Ring
import BloblyEmb.Lib.Trace

/-!
# The ring of frames

Frames from an interrupt to the bridge tick (`driver/can/can_ring.h`): one producer, one consumer, and
no lock. Every access of a shared word or byte is a step of its own, in any order of the two sides.
-/
namespace BloblyEmb.Can

/-- One slot. -/
structure Msg where
  id : UInt32
  len : UInt8
  data : ℕ → UInt8

/-- A frame, as a caller sees it. -/
structure Frame where
  id : UInt32
  len : UInt8
  data : List UInt8
  deriving DecidableEq, Repr

def Msg.frame (m : Msg) : Frame := ⟨m.id, m.len, (List.range m.len.toNat).map m.data⟩

/-- Where `blob_ring_push` is. The head is the producer's own, so it is loaded with the call. -/
inductive Producer where
  | idle
  | load (h : UInt32) (id : UInt32) (d : ℕ → UInt8) (len : UInt8)
  | id (h : UInt32) (id : UInt32) (d : ℕ → UInt8) (len : UInt8)
  | len (h : UInt32) (id : UInt32) (d : ℕ → UInt8) (len : UInt8)
  | copy (h : UInt32) (id : UInt32) (d : ℕ → UInt8) (len : UInt8) (k : ℕ)

/-- Where `blob_ring_pop` is. -/
inductive Consumer where
  | idle
  | load (t : UInt32)
  | id (t : UInt32)
  | len (t : UInt32) (id : UInt32)
  | size (t : UInt32) (id : UInt32) (len : UInt8)
  | copy (t : UInt32) (id : UInt32) (len : UInt8) (n : UInt8) (dst : List UInt8)

structure World where
  slot : UInt32 → Msg
  head : UInt32 := 0
  tail : UInt32 := 0
  producer : Producer := .idle
  consumer : Consumer := .idle

inductive Event where
  | push (id : UInt32) (d : ℕ → UInt8) (len : UInt8)
  | producer
  | pop
  | consumer

/-- How a call ends. -/
inductive Note where
  | quiet
  | accepted (f : Frame)
  | full
  | delivered (f : Frame)
  | empty
  deriving DecidableEq

/-- The slot of a cursor; the capacity `n` is a power of two. -/
def slotOf (n cursor : UInt32) : UInt32 := cursor &&& (n - 1)

namespace World

variable (n : UInt32)

def store (w : World) (h : UInt32) (m : Msg) : World :=
  { w with slot := Function.update w.slot (slotOf n h) m }

def stepProducer (w : World) : World × Note :=
  match w.producer with
  | .idle => (w, .quiet)
  | .load h id d len =>
    if h - w.tail ≥ n then ({ w with producer := .idle }, .full)
    else ({ w with producer := .id h id d (if len > 64 then 64 else len) }, .quiet)
  | .id h id d len =>
    ({ w.store n h { w.slot (slotOf n h) with id } with producer := .len h id d len }, .quiet)
  | .len h id d len =>
    ({ w.store n h { w.slot (slotOf n h) with len } with producer := .copy h id d len 0 }, .quiet)
  | .copy h id d len k =>
    if k < len.toNat then
      let m := w.slot (slotOf n h)
      ({ w.store n h { m with data := Function.update m.data k (d k) } with
        producer := .copy h id d len (k + 1) }, .quiet)
    else
      ({ w with head := h + 1, producer := .idle }, .accepted ⟨id, len, (List.range len.toNat).map d⟩)

def stepConsumer (w : World) : World × Note :=
  match w.consumer with
  | .idle => (w, .quiet)
  | .load t =>
    if w.head = t then ({ w with consumer := .idle }, .empty)
    else ({ w with consumer := .id t }, .quiet)
  | .id t => ({ w with consumer := .len t (w.slot (slotOf n t)).id }, .quiet)
  | .len t id => ({ w with consumer := .size t id (w.slot (slotOf n t)).len }, .quiet)
  | .size t id len =>
    -- the copy takes its size from the slot once more
    ({ w with consumer := .copy t id len (w.slot (slotOf n t)).len [] }, .quiet)
  | .copy t id len size dst =>
    if dst.length < size.toNat then
      let dst' := dst ++ [(w.slot (slotOf n t)).data dst.length]
      ({ w with consumer := .copy t id len size dst' }, .quiet)
    else
      ({ w with tail := t + 1, consumer := .idle }, .delivered ⟨id, len, dst⟩)

def step (w : World) : Event → World × Note
  | .push id d len =>
    match w.producer with
    | .idle => ({ w with producer := .load w.head id d len }, .quiet)
    | _ => (w, .quiet)
  | .producer => w.stepProducer n
  | .pop =>
    match w.consumer with
    | .idle => ({ w with consumer := .load w.tail }, .quiet)
    | _ => (w, .quiet)
  | .consumer => w.stepConsumer n

/-- The frames between the cursors. -/
def contents (w : World) : List Frame := Ring.entries (fun i => (w.slot i).frame) n w.tail w.head

end World

/-! ## The slots -/

/-- A capacity that the mask works for. -/
def Capacity (n : UInt32) : Prop := ∃ k, n.toNat = 2 ^ k

variable {n : UInt32}

theorem Capacity.pos (hn : Capacity n) : 0 < n.toNat := by
  obtain ⟨k, hk⟩ := hn
  rw [hk]
  exact Nat.two_pow_pos k

theorem Capacity.dvd (hn : Capacity n) : n.toNat ∣ 2 ^ 32 := by
  obtain ⟨k, hk⟩ := hn
  have hlt := n.toNat_lt
  rw [hk] at hlt ⊢
  exact Nat.pow_dvd_pow 2 (Nat.lt_of_not_le fun h =>
    absurd (Nat.pow_le_pow_right (show 0 < 2 by decide) h) (Nat.not_le.mpr hlt)).le

theorem slotOf_eq (hn : Capacity n) (cursor : UInt32) : slotOf n cursor = cursor % n := by
  have hpos := hn.pos
  obtain ⟨k, hk⟩ := hn
  have hone : (1 : UInt32) ≤ n := UInt32.le_iff_toNat_le.mpr hpos
  rw [slotOf, ← UInt32.toNat_inj, UInt32.toNat_and, UInt32.toNat_sub_of_le _ _ hone, UInt32.toNat_mod, hk]
  exact Nat.and_two_pow_sub_one_eq_mod _ _

variable {w : World}

theorem count_pos {tail head : UInt32} (h : tail ≠ head) : 0 < (head - tail).toNat := by
  have hne : Ring.entries (fun _ => ()) 1 tail head ≠ [] := mt Ring.entries_eq_nil_iff.mp h
  have hpos := List.length_pos_iff.mpr hne
  rwa [Ring.length_entries] at hpos

/-- What the producer stores is behind the contents. -/
theorem store_contents (hn : Capacity n) (hroom : (w.head - w.tail).toNat < n.toNat) (m : Msg) :
    (w.store n w.head m).contents n = w.contents n := by
  have hview : (fun i => ((w.store n w.head m).slot i).frame) =
      Function.update (fun i => (w.slot i).frame) (w.head % n) m.frame := by
    rw [← slotOf_eq hn]
    exact Function.comp_update Msg.frame w.slot _ m
  change Ring.entries (fun i => ((w.store n w.head m).slot i).frame) n w.tail w.head = _
  rw [hview, Ring.entries_store (Ring.clear_of_dvd hn.dvd hroom)]
  rfl

/-- And so it is behind the slot that the consumer reads. -/
theorem store_tail (hn : Capacity n) (hroom : (w.head - w.tail).toNat < n.toNat)
    (hne : w.tail ≠ w.head) (m : Msg) :
    (w.store n w.head m).slot (slotOf n w.tail) = w.slot (slotOf n w.tail) := by
  have hclear := Ring.clear_of_dvd hn.dvd hroom 0 (count_pos hne)
  have hzero : Ring.slot n w.tail 0 = slotOf n w.tail := by
    rw [slotOf_eq hn, Ring.slot]
    simp
  rw [hzero, ← slotOf_eq hn] at hclear
  exact Function.update_of_ne hclear _ _

/-! ## The invariant -/

/-- The producer holds the slot behind the contents, filled as far as it has come. -/
def ProducerAt (n : UInt32) (w : World) : Producer → Prop
  | .idle => True
  | .load h _ _ _ => h = w.head
  | .id h _ _ _ => h = w.head ∧ (w.head - w.tail).toNat < n.toNat
  | .len h id _ _ => h = w.head ∧ (w.head - w.tail).toNat < n.toNat ∧ (w.slot (slotOf n h)).id = id
  | .copy h id d len k => h = w.head ∧ (w.head - w.tail).toNat < n.toNat ∧
      (w.slot (slotOf n h)).id = id ∧ (w.slot (slotOf n h)).len = len ∧ k ≤ len.toNat ∧
      ∀ j < k, (w.slot (slotOf n h)).data j = d j

/-- The consumer holds the first of the contents, read as far as it has come. -/
def ConsumerAt (n : UInt32) (w : World) : Consumer → Prop
  | .idle => True
  | .load t => t = w.tail
  | .id t => t = w.tail ∧ w.tail ≠ w.head
  | .len t id => t = w.tail ∧ w.tail ≠ w.head ∧ id = (w.slot (slotOf n t)).id
  | .size t id len => t = w.tail ∧ w.tail ≠ w.head ∧ id = (w.slot (slotOf n t)).id ∧
      len = (w.slot (slotOf n t)).len
  | .copy t id len size dst => t = w.tail ∧ w.tail ≠ w.head ∧ id = (w.slot (slotOf n t)).id ∧
      len = (w.slot (slotOf n t)).len ∧ size = (w.slot (slotOf n t)).len ∧
      dst.length ≤ size.toNat ∧ dst = (List.range dst.length).map (w.slot (slotOf n t)).data

/-- What the calls of a run took and gave. -/
structure Log where
  accepted : List Frame := []
  delivered : List Frame := []

def Log.note (o : Log) : Note → Log
  | .accepted f => { o with accepted := o.accepted ++ [f] }
  | .delivered f => { o with delivered := o.delivered ++ [f] }
  | _ => o

structure Inv (n : UInt32) (w : World) (o : Log) : Prop where
  count : (w.head - w.tail).toNat ≤ n.toNat
  frames : o.accepted = o.delivered ++ w.contents n
  producer : ProducerAt n w w.producer
  consumer : ConsumerAt n w w.consumer

/-- What the producer has stored stays, while the slots do and there is room for it. -/
theorem ProducerAt.congr {w w' : World} {p : Producer} (h : ProducerAt n w p) (hhead : w'.head = w.head)
    (hslot : w'.slot = w.slot)
    (hroom : (w.head - w.tail).toNat < n.toNat → (w.head - w'.tail).toNat < n.toNat) :
    ProducerAt n w' p := by
  cases p with
  | idle => trivial
  | load hd id d len => exact h.trans hhead.symm
  | id hd id d len => exact ⟨h.1.trans hhead.symm, hhead ▸ hroom h.2⟩
  | len hd id d len =>
    obtain ⟨rfl, hfree, hrest⟩ := h
    refine ⟨hhead.symm, hhead ▸ hroom hfree, ?_⟩
    rw [hslot]
    exact hrest
  | copy hd id d len k =>
    obtain ⟨rfl, hfree, hrest⟩ := h
    refine ⟨hhead.symm, hhead ▸ hroom hfree, ?_⟩
    rw [hslot]
    exact hrest

/-- What the consumer has read stays, while its slot does. -/
theorem ConsumerAt.congr {w w' : World} {c : Consumer} (h : ConsumerAt n w c) (htail : w'.tail = w.tail)
    (hkept : w.tail ≠ w.head → w.tail ≠ w'.head ∧
      w'.slot (slotOf n w.tail) = w.slot (slotOf n w.tail)) : ConsumerAt n w' c := by
  cases c with
  | idle => trivial
  | load t => exact h.trans htail.symm
  | id t => exact ⟨h.1.trans htail.symm, htail ▸ (hkept h.2).1⟩
  | len t id =>
    obtain ⟨rfl, hne, hrest⟩ := h
    refine ⟨htail.symm, htail ▸ (hkept hne).1, ?_⟩
    rw [(hkept hne).2]
    exact hrest
  | size t id len =>
    obtain ⟨rfl, hne, hrest⟩ := h
    refine ⟨htail.symm, htail ▸ (hkept hne).1, ?_⟩
    rw [(hkept hne).2]
    exact hrest
  | copy t id len size dst =>
    obtain ⟨rfl, hne, hrest⟩ := h
    refine ⟨htail.symm, htail ▸ (hkept hne).1, ?_⟩
    rw [(hkept hne).2]
    exact hrest

/-- A store of the producer, and how far it has come with it. -/
theorem Inv.store (hn : Capacity n) {o : Log} (h : Inv n w o)
    (hroom : (w.head - w.tail).toNat < n.toNat) (m : Msg) {p : Producer}
    (hp : ProducerAt n { w.store n w.head m with producer := p } p) :
    Inv n { w.store n w.head m with producer := p } o where
  count := h.count
  frames := h.frames.trans (congrArg (o.delivered ++ ·) (store_contents hn hroom m).symm)
  producer := hp
  consumer := h.consumer.congr rfl fun hne => ⟨hne, store_tail hn hroom hne m⟩

theorem store_self (w : World) (n h : UInt32) (m : Msg) : (w.store n h m).slot (slotOf n h) = m :=
  Function.update_self _ _ _

/-- What the two sides hold does not depend on where the other side is. -/
theorem Inv.producer_at {o : Log} (h : Inv n w o) {p : Producer} (hp : ProducerAt n w p) :
    Inv n { w with producer := p } o where
  count := h.count
  frames := h.frames
  producer := hp.congr rfl rfl id
  consumer := h.consumer.congr rfl fun hne => ⟨hne, rfl⟩

theorem Inv.consumer_at {o : Log} (h : Inv n w o) {c : Consumer} (hc : ConsumerAt n w c) :
    Inv n { w with consumer := c } o where
  count := h.count
  frames := h.frames
  producer := h.producer.congr rfl rfl id
  consumer := hc.congr rfl fun hne => ⟨hne, rfl⟩

/-- The whole slot, once it is filled. -/
theorem frame_of_filled {m : Msg} {id : UInt32} {d : ℕ → UInt8} {len : UInt8} (hid : m.id = id)
    (hlen : m.len = len) (hdata : ∀ j < len.toNat, m.data j = d j) :
    m.frame = ⟨id, len, (List.range len.toNat).map d⟩ := by
  rw [Msg.frame, hid, hlen]
  exact congrArg (Frame.mk id len) (List.map_congr_left fun j hj => hdata j (List.mem_range.mp hj))

theorem inv_producer (hn : Capacity n) {o : Log} (h : Inv n w o) :
    Inv n (w.stepProducer n).1 (o.note (w.stepProducer n).2) ∧
      ((w.stepProducer n).2 = .full → (w.contents n).length = n.toNat) := by
  have hp := h.producer
  unfold World.stepProducer
  cases hprod : w.producer with
  | idle => exact ⟨h, by simp⟩
  | load hd id d len =>
    rw [hprod] at hp
    obtain rfl : hd = w.head := hp
    dsimp only
    by_cases hfull : w.head - w.tail ≥ n
    · rw [if_pos hfull]
      refine ⟨h.producer_at trivial, fun _ => ?_⟩
      have hcount := h.count
      have hge := UInt32.le_iff_toNat_le.mp hfull
      rw [World.contents, Ring.length_entries]
      omega
    · rw [if_neg hfull]
      have hroom := UInt32.lt_iff_toNat_lt.mp (UInt32.not_le.mp hfull)
      exact ⟨h.producer_at ⟨rfl, hroom⟩, by simp⟩
  | id hd id d len =>
    rw [hprod] at hp
    obtain ⟨rfl, hroom⟩ := hp
    refine ⟨h.store hn hroom _ ⟨rfl, hroom, ?_⟩, by simp⟩
    exact congrArg Msg.id (store_self w n w.head _)
  | len hd id d len =>
    rw [hprod] at hp
    obtain ⟨rfl, hroom, hid⟩ := hp
    refine ⟨h.store hn hroom _ ⟨rfl, hroom, ?_, ?_, Nat.zero_le _, ?_⟩, by simp⟩
    · exact (congrArg Msg.id (store_self w n w.head _)).trans hid
    · exact congrArg Msg.len (store_self w n w.head _)
    · intro j hj
      exact absurd hj (Nat.not_lt_zero j)
  | copy hd id d len k =>
    rw [hprod] at hp
    obtain ⟨rfl, hroom, hid, hlen, hk, hdata⟩ := hp
    dsimp only
    by_cases hmore : k < len.toNat
    · rw [if_pos hmore]
      refine ⟨h.store hn hroom _ ⟨rfl, hroom, ?_, ?_, hmore, ?_⟩, by simp⟩
      · exact (congrArg Msg.id (store_self w n w.head _)).trans hid
      · exact (congrArg Msg.len (store_self w n w.head _)).trans hlen
      · intro j hj
        refine (congrFun (congrArg Msg.data (store_self w n w.head _)) j).trans ?_
        dsimp only
        by_cases hlast : j = k
        · rw [hlast, Function.update_self]
        · rw [Function.update_of_ne hlast]
          exact hdata j (by omega)
    · rw [if_neg hmore]
      refine ⟨?_, by simp⟩
      have hlt := n.toNat_lt
      have hgrow := @Ring.entries_push _ (fun i => (w.slot i).frame) n w.tail w.head (by omega)
      have hframe := frame_of_filled hid hlen fun j hj => hdata j (by omega)
      rw [slotOf_eq hn] at hframe
      have hcount : (w.head + 1 - w.tail).toNat = (w.head - w.tail).toNat + 1 := by
        have hlength := congrArg List.length hgrow
        rwa [List.length_append, Ring.length_entries, Ring.length_entries, List.length_singleton] at hlength
      refine ⟨?_, ?_, trivial, ?_⟩
      · dsimp only
        omega
      · change o.accepted ++ [_] = o.delivered ++ Ring.entries (fun i => (w.slot i).frame) n w.tail (w.head + 1)
        rw [hgrow, hframe, ← List.append_assoc]
        exact congrArg (· ++ _) h.frames
      · -- the contents are not empty now
        have hne : w.tail ≠ w.head + 1 := by
          intro heq
          rw [← heq, UInt32.sub_self] at hcount
          exact absurd hcount (by simp)
        exact h.consumer.congr rfl fun _ => ⟨hne, rfl⟩

theorem inv_consumer (hn : Capacity n) {o : Log} (h : Inv n w o) :
    Inv n (w.stepConsumer n).1 (o.note (w.stepConsumer n).2) ∧
      ((w.stepConsumer n).2 = .empty → w.contents n = []) := by
  have hc := h.consumer
  unfold World.stepConsumer
  cases hcons : w.consumer with
  | idle => exact ⟨h, by simp⟩
  | load t =>
    rw [hcons] at hc
    obtain rfl : t = w.tail := hc
    dsimp only
    by_cases hempty : w.head = w.tail
    · rw [if_pos hempty]
      exact ⟨h.consumer_at trivial, fun _ => Ring.entries_eq_nil_iff.mpr hempty.symm⟩
    · rw [if_neg hempty]
      exact ⟨h.consumer_at ⟨rfl, fun heq => hempty heq.symm⟩, by simp⟩
  | id t =>
    rw [hcons] at hc
    obtain ⟨rfl, hne⟩ := hc
    exact ⟨h.consumer_at ⟨rfl, hne, rfl⟩, by simp⟩
  | len t id =>
    rw [hcons] at hc
    obtain ⟨rfl, hne, hid⟩ := hc
    exact ⟨h.consumer_at ⟨rfl, hne, hid, rfl⟩, by simp⟩
  | size t id len =>
    rw [hcons] at hc
    obtain ⟨rfl, hne, hid, hlen⟩ := hc
    exact ⟨h.consumer_at ⟨rfl, hne, hid, hlen, rfl, Nat.zero_le _, rfl⟩, by simp⟩
  | copy t id len size dst =>
    rw [hcons] at hc
    obtain ⟨rfl, hne, hid, hlen, hsize, hle, hdst⟩ := hc
    dsimp only
    by_cases hmore : dst.length < size.toNat
    · rw [if_pos hmore]
      refine ⟨h.consumer_at ⟨rfl, hne, hid, hlen, hsize, ?_, ?_⟩, by simp⟩
      · rw [List.length_append, List.length_singleton]
        omega
      · rw [List.length_append, List.length_singleton, List.range_succ, List.map_append,
          List.map_singleton, ← hdst]
    · rw [if_neg hmore]
      refine ⟨?_, by simp⟩
      have hpop := @Ring.entries_pop _ (fun i => (w.slot i).frame) n w.tail w.head hne
      have hframe : (w.slot (w.tail % n)).frame = ⟨id, len, dst⟩ := by
        have hall : dst.length = size.toNat := by omega
        rw [hall] at hdst
        rw [← slotOf_eq hn, hdst, hid, hlen, hsize]
        rfl
      have hcount : (w.head - w.tail).toNat = (w.head - (w.tail + 1)).toNat + 1 := by
        have hlength := congrArg List.length hpop
        rwa [List.length_cons, Ring.length_entries, Ring.length_entries] at hlength
      have hfull := h.count
      refine ⟨?_, ?_, ?_, trivial⟩
      · dsimp only
        omega
      · change o.accepted = (o.delivered ++ [_]) ++ Ring.entries (fun i => (w.slot i).frame) n
          (w.tail + 1) w.head
        rw [List.append_assoc, List.singleton_append, ← hframe, ← hpop]
        exact h.frames
      · -- a slot more is free for the producer
        exact h.producer.congr rfl rfl fun hroom => by dsimp only; omega

theorem inv_step (hn : Capacity n) {o : Log} (h : Inv n w o) (e : Event) :
    Inv n (w.step n e).1 (o.note (w.step n e).2) ∧
      ((w.step n e).2 = .full → (w.contents n).length = n.toNat) ∧
      ((w.step n e).2 = .empty → w.contents n = []) := by
  cases e with
  | push id d len =>
    simp only [World.step]
    cases hprod : w.producer with
    | idle => exact ⟨h.producer_at rfl, by simp, by simp⟩
    | _ => exact ⟨h, by simp, by simp⟩
  | pop =>
    simp only [World.step]
    cases hcons : w.consumer with
    | idle => exact ⟨h.consumer_at rfl, by simp, by simp⟩
    | _ => exact ⟨h, by simp, by simp⟩
  | producer =>
    obtain ⟨hinv, hfull⟩ := inv_producer hn h
    refine ⟨hinv, hfull, fun hempty => ?_⟩
    exfalso
    change (w.stepProducer n).2 = .empty at hempty
    unfold World.stepProducer at hempty
    cases hprod : w.producer with
    | load => by_cases hf : n ≤ w.head - w.tail <;> simp [hprod] at hempty <;> split at hempty <;> simp at hempty
    | copy hd id d len k => by_cases hm : k < len.toNat <;> simp [hprod, hm] at hempty
    | _ => simp [hprod] at hempty
  | consumer =>
    obtain ⟨hinv, hempty⟩ := inv_consumer hn h
    refine ⟨hinv, fun hfull => ?_, hempty⟩
    exfalso
    change (w.stepConsumer n).2 = .full at hfull
    unfold World.stepConsumer at hfull
    cases hcons : w.consumer with
    | load t => by_cases hf : w.head = t <;> simp [hcons, hf] at hfull
    | copy t id len size dst => by_cases hm : dst.length < size.toNat <;> simp [hcons, hm] at hfull
    | _ => simp [hcons] at hfull

/-- What a run took and gave. -/
def log (hist : List (Trace.Entry World Event Note)) : Log :=
  hist.foldl (fun o x => o.note x.label) {}

theorem log_snoc (hist : List (Trace.Entry World Event Note)) (x : Trace.Entry World Event Note) :
    log (hist ++ [x]) = (log hist).note x.label := by
  rw [log, List.foldl_append]
  rfl

/-- A ring that starts empty, wherever its cursors are. -/
def World.start (slot : UInt32 → Msg) (cursor : UInt32) : World where
  slot := slot
  head := cursor
  tail := cursor

theorem inv_start (slot : UInt32 → Msg) (cursor : UInt32) : Inv n (World.start slot cursor) {} where
  count := by simp [World.start]
  frames := by
    have hempty : (World.start slot cursor).contents n = [] := Ring.entries_eq_nil_iff.mpr rfl
    rw [hempty]
    rfl
  producer := trivial
  consumer := trivial

/-- In every interleaving of the accesses of the two sides, over any number of turns of the cursors: the
frames that were given are the first of those that were taken, each once, in order and whole; the others
are in the ring, no more than it holds. A call gives up only when the ring is full, or empty. -/
theorem frames_in_order (hn : Capacity n) (slot : UInt32 → Msg) (cursor : UInt32) (es : List Event) :
    let w := Trace.final (World.step n) (World.start slot cursor) es
    let o := log (Trace.history (World.step n) (World.start slot cursor) es)
    o.accepted = o.delivered ++ w.contents n ∧ (w.contents n).length ≤ n.toNat ∧
      ∀ x ∈ Trace.history (World.step n) (World.start slot cursor) es,
        (x.label = .full → (x.before.contents n).length = n.toNat) ∧
        (x.label = .empty → x.before.contents n = []) := by
  have hinv : ∀ es, Inv n (Trace.final (World.step n) (World.start slot cursor) es)
      (log (Trace.history (World.step n) (World.start slot cursor) es)) := by
    intro es
    refine Trace.run_induction (fun w hist => Inv n w (log hist)) (inv_start slot cursor) ?_ es
    intro es e h
    rw [log_snoc]
    exact (inv_step hn h e).1
  refine ⟨(hinv es).frames, ?_, fun x hx => ?_⟩
  · rw [World.contents, Ring.length_entries]
    exact (hinv es).count
  · obtain ⟨es₁, e, es₂, -, rfl⟩ := Trace.mem_history hx
    exact (inv_step hn (hinv es₁) e).2

/-- The capacity of the backends. -/
def ringCap : UInt32 := 32

theorem frames_in_order_cap :
    ((Trace.final (World.step ringCap) (World.start (fun _ => ⟨0, 0, fun _ => 0⟩) 0xFFFFFFFF)
      [.push 0x123 (fun _ => 7) 2, .producer, .producer, .producer, .producer, .producer, .producer]).contents
        ringCap).length ≤ ringCap.toNat :=
  (frames_in_order ⟨5, rfl⟩ (fun _ => ⟨0, 0, fun _ => 0⟩) 0xFFFFFFFF _).2.1

end BloblyEmb.Can
