import Mathlib.Algebra.Order.Ring.Nat
import BloblyEmb.Bulk.Pool

/-!
# Who owns a buffer

The two sides of the pool change the rings by one access at a time, and each knows what it has read
of the other's. What breaks the pool is an entry that is stored over another, and that is the only
thing.
-/
namespace BloblyEmb.Bulk

/-! ## The invariant -/

/-- What the producer knows while it is in a call. -/
def Producer.Ok (p : Producer) (b : Pool) (loaned : List UInt32) : Prop :=
  match p with
  | .idle | .loan | .overflow | .overflowStore _ => True
  | .loanHead t => t = b.fTail
  | .loanEntry t => t = b.fTail ∧ b.fTail ≠ b.fHead
  | .loanStore t idx => t = b.fTail ∧ b.free.head? = some idx
  | .len idx _ => idx ∈ loaned
  | .readyHead idx l => idx ∈ loaned ∧ b.lenArr idx = l
  | .readyEntry idx l h => idx ∈ loaned ∧ b.lenArr idx = l ∧ h = b.rHead
  | .readyStore idx l h =>
    idx ∈ loaned ∧ b.lenArr idx = l ∧ h = b.rHead ∧ b.readyRing (h % b.nbuf) = idx

/-- And the consumer. -/
def Consumer.Ok (c : Consumer) (b : Pool) (held : List UInt32) : Prop :=
  match c with
  | .idle | .take => True
  | .takeHead t => t = b.rTail
  | .takeEntry t => t = b.rTail ∧ b.rTail ≠ b.rHead
  | .takeLen t idx => t = b.rTail ∧ b.readyIdx.head? = some idx
  | .takeStore t idx len => t = b.rTail ∧ b.readyIdx.head? = some idx ∧ b.lenArr idx = len
  | .freeHead idx => idx ∈ held
  | .freeEntry idx h => idx ∈ held ∧ h = b.fHead
  | .freeStore idx h => idx ∈ held ∧ h = b.fHead ∧ b.freeRing (h % b.nbuf) = idx

structure Inv (n : UInt32) (w : World) (hist : List Step) : Prop where
  nbuf : w.pool.nbuf = n
  place : w.places.Perm (buffers n)
  order : published hist = taken hist ++ w.pool.ready
  producer : w.producer.Ok w.pool w.loaned
  consumer : w.consumer.Ok w.pool w.held

theorem published_snoc (hist : List Step) (x : Step) :
    published (hist ++ [x]) =
      match x.label with
      | .published idx len => published hist ++ [(idx, len)]
      | _ => published hist := by
  simp only [published, List.foldl_append]
  rfl

theorem taken_snoc (hist : List Step) (x : Step) :
    taken (hist ++ [x]) =
      match x.label with
      | .taken idx len => taken hist ++ [(idx, len)]
      | _ => taken hist := by
  simp only [taken, List.foldl_append]
  rfl

theorem nodup_buffers (n : UInt32) : (buffers n).Nodup := by
  apply List.Nodup.map_on _ List.nodup_range
  intro i hi j hj heq
  have hlt := n.toNat_lt
  have hi' := List.mem_range.mp hi
  have hj' := List.mem_range.mp hj
  have hnat := congrArg UInt32.toNat heq
  rw [UInt32.toNat_ofNat', UInt32.toNat_ofNat', Nat.mod_eq_of_lt (by omega),
    Nat.mod_eq_of_lt (by omega)] at hnat
  exact hnat

section Steps

variable {n : UInt32} {w : World} {hist : List Step} {x : Step} {b' : Pool} {idx : UInt32}

theorem Inv.nodup (h : Inv n w hist) : w.places.Nodup := h.place.nodup_iff.mpr (nodup_buffers n)

theorem Inv.length (h : Inv n w hist) :
    w.pool.free.length + w.loaned.length + w.pool.readyIdx.length + w.held.length = n.toNat := by
  have hlen := h.place.length_eq
  simpa [World.places, buffers, Nat.add_assoc] using hlen

/-- What the producer has in hand is nowhere else. -/
theorem Inv.of_loaned (h : Inv n w hist) (hidx : idx ∈ w.loaned) :
    idx ∉ w.pool.free ∧ idx ∉ w.pool.readyIdx ∧ idx ∉ w.held := by
  have hcount := List.nodup_iff_count_le_one.mp h.nodup idx
  have hone := List.one_le_count_iff.mpr hidx
  simp only [World.places, List.count_append] at hcount
  refine ⟨?_, ?_, ?_⟩ <;>
    · intro hmem
      have hpos := List.one_le_count_iff.mpr hmem
      omega

/-- The consumer's knowledge survives what the producer may do. -/
theorem Consumer.Ok.frame {c : Consumer} {b : Pool} {held : List UInt32} (h : c.Ok b held)
    (hn : b'.nbuf = b.nbuf) (htail : b'.rTail = b.rTail) (hhead : b'.fHead = b.fHead)
    (hfree : b'.freeRing = b.freeRing) (hready : b.readyIdx <+: b'.readyIdx)
    (hlen : ∀ idx ∈ b.readyIdx, b'.lenArr idx = b.lenArr idx) : c.Ok b' held := by
  have hfirst : ∀ idx, b.readyIdx.head? = some idx →
      b'.readyIdx.head? = some idx ∧ b'.lenArr idx = b.lenArr idx := by
    intro idx hidx
    obtain ⟨rest, hrest⟩ := hready
    refine ⟨by rw [← hrest, List.head?_append, hidx, Option.some_or], ?_⟩
    exact hlen idx (List.mem_of_mem_head? hidx)
  cases c with
  | idle => trivial
  | take => trivial
  | takeHead t => exact h.trans htail.symm
  | takeEntry t =>
    obtain ⟨ht, hne⟩ := h
    refine ⟨ht.trans htail.symm, ?_⟩
    intro heq
    have hnil : b'.readyIdx = [] := Ring.entries_eq_nil_iff.mpr heq
    rw [hnil, List.prefix_nil] at hready
    exact hne (Ring.entries_eq_nil_iff.mp hready)
  | takeLen t idx => exact ⟨h.1.trans htail.symm, (hfirst idx h.2).1⟩
  | takeStore t idx len =>
    obtain ⟨ht, hidx, hl⟩ := h
    obtain ⟨hidx', hl'⟩ := hfirst idx hidx
    exact ⟨ht.trans htail.symm, hidx', hl'.trans hl⟩
  | freeHead idx => exact h
  | freeEntry idx hd => exact ⟨h.1, h.2.trans hhead.symm⟩
  | freeStore idx hd =>
    refine ⟨h.1, h.2.1.trans hhead.symm, ?_⟩
    rw [hfree, hn]
    exact h.2.2

/-- And the producer's what the consumer may do. -/
theorem Producer.Ok.frame {p : Producer} {b : Pool} {loaned : List UInt32} (h : p.Ok b loaned)
    (hn : b'.nbuf = b.nbuf) (htail : b'.fTail = b.fTail) (hhead : b'.rHead = b.rHead)
    (hready : b'.readyRing = b.readyRing) (hlen : b'.lenArr = b.lenArr)
    (hfree : b.free <+: b'.free) : p.Ok b' loaned := by
  cases p with
  | idle => trivial
  | loan => trivial
  | overflow => trivial
  | overflowStore ov => trivial
  | loanHead t => exact h.trans htail.symm
  | loanEntry t =>
    obtain ⟨ht, hne⟩ := h
    refine ⟨ht.trans htail.symm, ?_⟩
    intro heq
    have hnil : b'.free = [] := Ring.entries_eq_nil_iff.mpr heq
    rw [hnil, List.prefix_nil] at hfree
    exact hne (Ring.entries_eq_nil_iff.mp hfree)
  | loanStore t idx =>
    obtain ⟨rest, hrest⟩ := hfree
    refine ⟨h.1.trans htail.symm, ?_⟩
    rw [← hrest, List.head?_append, h.2, Option.some_or]
  | len idx l => exact h
  | readyHead idx l =>
    refine ⟨h.1, ?_⟩
    rw [hlen]
    exact h.2
  | readyEntry idx l hd =>
    refine ⟨h.1, ?_, h.2.2.trans hhead.symm⟩
    rw [hlen]
    exact h.2.1
  | readyStore idx l hd =>
    obtain ⟨hmem, hl, hh, hentry⟩ := h
    refine ⟨hmem, ?_, hh.trans hhead.symm, ?_⟩
    · rw [hlen]
      exact hl
    · rw [hready, hn]
      exact hentry

/-- A step that moves no buffer. -/
theorem Inv.stay (h : Inv n w hist) (hpool : x.after.pool.nbuf = w.pool.nbuf)
    (hfree : x.after.pool.free = w.pool.free) (hready : x.after.pool.ready = w.pool.ready)
    (hloaned : x.after.loaned = w.loaned) (hheld : x.after.held = w.held)
    (hpub : ∀ idx len, x.label ≠ .published idx len) (htak : ∀ idx len, x.label ≠ .taken idx len)
    (hproducer : x.after.producer.Ok x.after.pool x.after.loaned)
    (hconsumer : x.after.consumer.Ok x.after.pool x.after.held) :
    Inv n x.after (hist ++ [x]) := by
  have hidx : x.after.pool.readyIdx = w.pool.readyIdx := by
    have hfst := congrArg (List.map Prod.fst) hready
    simpa [Pool.ready, Function.comp_def] using hfst
  constructor
  case nbuf => rw [hpool, h.nbuf]
  case place =>
    rw [World.places, hfree, hloaned, hidx, hheld]
    exact h.place
  case order =>
    rw [published_snoc, taken_snoc, hready]
    split
    · next heq => exact absurd heq (hpub _ _)
    · split
      · next heq => exact absurd heq (htak _ _)
      · exact h.order
  case producer => exact hproducer
  case consumer => exact hconsumer

/-- A step that leaves the pool alone. -/
theorem Inv.still (h : Inv n w hist) (hpool : x.after.pool = w.pool)
    (hloaned : x.after.loaned = w.loaned) (hheld : x.after.held = w.held)
    (hpub : ∀ idx len, x.label ≠ .published idx len) (htak : ∀ idx len, x.label ≠ .taken idx len)
    (hproducer : x.after.producer.Ok w.pool w.loaned)
    (hconsumer : x.after.consumer.Ok w.pool w.held) :
    Inv n x.after (hist ++ [x]) := by
  refine h.stay (by rw [hpool]) (by rw [hpool]) (by rw [hpool]) hloaned hheld hpub htak ?_ ?_
  · rwa [hpool, hloaned]
  · rwa [hpool, hheld]

/-! ## The producer -/

theorem good_loan (h : Inv n w hist) {t : UInt32}
    (hp : w.producer = .loanStore t idx) :
    Inv n (w.step .producer).1 (hist ++ [Trace.entry World.step w .producer]) := by
  have hok := h.producer
  simp only [hp, Producer.Ok] at hok
  obtain ⟨rfl, hhead⟩ := hok
  have hstep : w.step .producer = ({ w with
      pool := { w.pool with fTail := w.pool.fTail + 1 }
      producer := .idle
      loaned := w.loaned ++ [idx] }, .loaned idx) := by
    simp [World.step, World.stepProducer, hp]
  have hne : w.pool.fTail ≠ w.pool.fHead := by
    intro heq
    have hnil : w.pool.free = [] := Ring.entries_eq_nil_iff.mpr heq
    simp [hnil] at hhead
  have hfree : w.pool.free = idx :: { w.pool with fTail := w.pool.fTail + 1 }.free := by
    have hpop : Ring.entries w.pool.freeRing w.pool.nbuf w.pool.fTail w.pool.fHead = _ :=
      Ring.entries_pop hne
    rw [Pool.free, hpop] at hhead ⊢
    rw [List.head?_cons, Option.some_inj] at hhead
    rw [hhead]
    rfl
  have hafter : (Trace.entry World.step w .producer).label = .loaned idx := by
    rw [Trace.entry_label, hstep]
  constructor
  case nbuf => simpa [hstep] using h.nbuf
  case place =>
    have hplace := h.place
    rw [World.places, hfree] at hplace
    rw [hstep, World.places]
    refine List.Perm.trans ?_ hplace
    rw [List.perm_iff_count]
    intro a
    simp only [List.count_append, List.count_cons, List.count_nil, Pool.readyIdx]
    omega
  case order =>
    rw [published_snoc, taken_snoc, hafter, hstep]
    exact h.order
  case producer => simp [hstep, Producer.Ok]
  case consumer =>
    rw [hstep]
    exact h.consumer.frame rfl rfl rfl rfl (List.prefix_refl _) fun _ _ => rfl

theorem good_len (h : Inv n w hist) {l : UInt32} (hp : w.producer = .len idx l) :
    Inv n (w.step .producer).1 (hist ++ [Trace.entry World.step w .producer]) := by
  have hmem := h.producer
  simp only [hp, Producer.Ok] at hmem
  have hstep : w.step .producer = ({ w with
      pool := { w.pool with lenArr := Function.update w.pool.lenArr idx l }
      producer := .readyHead idx l }, .quiet) := by
    simp [World.step, World.stepProducer, hp]
  have hlen : ∀ i ∈ w.pool.readyIdx, Function.update w.pool.lenArr idx l i = w.pool.lenArr i := by
    intro i hi
    apply Function.update_of_ne
    rintro rfl
    exact (h.of_loaned hmem).2.1 hi
  refine h.stay (x := Trace.entry World.step w .producer) ?_ ?_ ?_ ?_ ?_ ?_ ?_ ?_ ?_
  all_goals simp only [Trace.entry_after, Trace.entry_label, hstep]
  · rfl
  · exact List.map_congr_left fun i hi => by rw [Prod.mk.injEq]; exact ⟨rfl, hlen i hi⟩
  · simp
  · simp
  · exact ⟨hmem, Function.update_self _ _ _⟩
  · exact h.consumer.frame rfl rfl rfl rfl (List.prefix_refl _) hlen

theorem good_readyEntry (h : Inv n w hist) {l hd : UInt32} (hp : w.producer = .readyEntry idx l hd)
    (hclear : Ring.Clear w.pool.nbuf w.pool.rTail hd) :
    Inv n (w.step .producer).1 (hist ++ [Trace.entry World.step w .producer]) := by
  have hok := h.producer
  simp only [hp, Producer.Ok] at hok
  obtain ⟨hmem, hl, rfl⟩ := hok
  have hstep : w.step .producer = ({ w with
      pool := { w.pool with
        readyRing := Function.update w.pool.readyRing (w.pool.rHead % w.pool.nbuf) idx }
      producer := .readyStore idx l w.pool.rHead }, .quiet) := by
    simp [World.step, World.stepProducer, hp]
  have hready : { w.pool with
      readyRing := Function.update w.pool.readyRing (w.pool.rHead % w.pool.nbuf) idx }.readyIdx =
        w.pool.readyIdx := Ring.entries_store hclear
  refine h.stay (x := Trace.entry World.step w .producer) ?_ ?_ ?_ ?_ ?_ ?_ ?_ ?_ ?_
  all_goals simp only [Trace.entry_after, Trace.entry_label, hstep]
  · rfl
  · rw [Pool.ready, hready]
    rfl
  · simp
  · simp
  · exact ⟨hmem, hl, rfl, Function.update_self _ _ _⟩
  · refine h.consumer.frame rfl rfl rfl rfl ?_ fun _ _ => rfl
    simp only [hready, List.prefix_rfl]

theorem good_publish (h : Inv n w hist) (hn : n.toNat ≤ 1024) {l hd : UInt32}
    (hp : w.producer = .readyStore idx l hd) :
    Inv n (w.step .producer).1 (hist ++ [Trace.entry World.step w .producer]) := by
  have hok := h.producer
  simp only [hp, Producer.Ok] at hok
  obtain ⟨hmem, hl, rfl, hentry⟩ := hok
  have hstep : w.step .producer = ({ w with
      pool := { w.pool with rHead := w.pool.rHead + 1 }
      producer := .idle
      loaned := w.loaned.erase idx }, .published idx l) := by
    simp [World.step, World.stepProducer, hp]
  have hready : { w.pool with rHead := w.pool.rHead + 1 }.readyIdx = w.pool.readyIdx ++ [idx] := by
    have hcount := h.length
    simp only [Pool.readyIdx, Ring.length_entries] at hcount
    have hpush : Ring.entries w.pool.readyRing w.pool.nbuf w.pool.rTail (w.pool.rHead + 1) = _ :=
      Ring.entries_push (by omega)
    rw [hentry] at hpush
    exact hpush
  constructor
  case nbuf => simpa [hstep] using h.nbuf
  case place =>
    rw [hstep, World.places]
    refine List.Perm.trans ?_ h.place
    rw [List.perm_iff_count]
    intro a
    have herase := (List.perm_cons_erase hmem).count_eq a
    simp only [hready, World.places, List.count_append, List.count_cons, List.count_nil,
      Pool.free] at herase ⊢
    omega
  case order =>
    rw [published_snoc, taken_snoc, Trace.entry_label, hstep]
    simp only
    rw [Pool.ready, hready, List.map_append, List.map_singleton, ← List.append_assoc, ← hl]
    congr 1
    exact h.order
  case producer => simp [hstep, Producer.Ok]
  case consumer =>
    rw [hstep]
    refine h.consumer.frame rfl rfl rfl rfl ?_ fun _ _ => rfl
    rw [hready]
    exact List.prefix_append _ _

theorem good_producer (h : Inv n w hist) (hn : n.toNat ≤ 1024)
    (hclear : ∀ idx l hd, w.producer = .readyEntry idx l hd →
      Ring.Clear w.pool.nbuf w.pool.rTail hd) :
    Inv n (w.step .producer).1 (hist ++ [Trace.entry World.step w .producer]) := by
  have hstill : ∀ (p : Producer) (l : Label), w.step .producer = ({ w with producer := p }, l) →
      (∀ idx len, l ≠ .published idx len) → (∀ idx len, l ≠ .taken idx len) →
      p.Ok w.pool w.loaned →
      Inv n (w.step .producer).1 (hist ++ [Trace.entry World.step w .producer]) := by
    intro p l hstep hpub htak hok
    refine h.still (x := Trace.entry World.step w .producer) ?_ ?_ ?_ ?_ ?_ ?_ ?_
    all_goals simp only [Trace.entry_after, Trace.entry_label, hstep]
    · exact hpub
    · exact htak
    · exact hok
    · exact h.consumer
  have hok := h.producer
  cases hp : w.producer with
  | idle =>
    have hstep : w.step .producer = (w, .quiet) := by simp [World.step, World.stepProducer, hp]
    exact hstill w.producer .quiet hstep (by simp) (by simp) hok
  | loan =>
    exact hstill (.loanHead w.pool.fTail) .quiet (by simp [World.step, World.stepProducer, hp]) (by simp)
      (by simp) rfl
  | loanHead t =>
    simp only [hp, Producer.Ok] at hok
    by_cases hempty : t = w.pool.fHead
    · exact hstill .overflow .quiet (by simp [World.step, World.stepProducer, hp, hempty]) (by simp)
        (by simp) trivial
    · refine hstill (.loanEntry t) .quiet (by simp [World.step, World.stepProducer, hp, hempty])
        (by simp) (by simp) ⟨hok, ?_⟩
      rwa [← hok]
  | loanEntry t =>
    simp only [hp, Producer.Ok] at hok
    obtain ⟨rfl, hne⟩ := hok
    refine hstill (.loanStore w.pool.fTail (w.pool.freeRing (w.pool.fTail % w.pool.nbuf))) .quiet
      (by simp [World.step, World.stepProducer, hp]) (by simp) (by simp) ⟨rfl, ?_⟩
    rw [Pool.free, Ring.entries_pop hne, List.head?_cons]
  | loanStore t idx => exact good_loan h hp
  | overflow =>
    exact hstill (.overflowStore w.pool.overflows) .quiet
      (by simp [World.step, World.stepProducer, hp]) (by simp) (by simp) trivial
  | overflowStore ov =>
    have hstep : w.step .producer =
        ({ w with pool := { w.pool with overflows := ov + 1 }, producer := .idle }, .exhausted) := by
      simp [World.step, World.stepProducer, hp]
    refine h.stay (x := Trace.entry World.step w .producer) ?_ ?_ ?_ ?_ ?_ ?_ ?_ ?_ ?_
    all_goals simp only [Trace.entry_after, Trace.entry_label, hstep]
    · rfl
    · rfl
    · simp
    · simp
    · trivial
    · exact h.consumer.frame rfl rfl rfl rfl (List.prefix_refl _) fun _ _ => rfl
  | len idx l => exact good_len h hp
  | readyHead idx l =>
    simp only [hp, Producer.Ok] at hok
    exact hstill (.readyEntry idx l w.pool.rHead) .quiet
      (by simp [World.step, World.stepProducer, hp]) (by simp) (by simp) ⟨hok.1, hok.2, rfl⟩
  | readyEntry idx l hd => exact good_readyEntry h hp (hclear idx l hd hp)
  | readyStore idx l hd => exact good_publish h hn hp

/-! ## The consumer -/

theorem good_take (h : Inv n w hist) {t l : UInt32} (hp : w.consumer = .takeStore t idx l) :
    Inv n (w.step .consumer).1 (hist ++ [Trace.entry World.step w .consumer]) := by
  have hok := h.consumer
  simp only [hp, Consumer.Ok] at hok
  obtain ⟨rfl, hhead, hl⟩ := hok
  have hstep : w.step .consumer = ({ w with
      pool := { w.pool with rTail := w.pool.rTail + 1 }
      consumer := .idle
      held := w.held ++ [idx] }, .taken idx l) := by
    simp [World.step, World.stepConsumer, hp]
  have hne : w.pool.rTail ≠ w.pool.rHead := by
    intro heq
    have hnil : w.pool.readyIdx = [] := Ring.entries_eq_nil_iff.mpr heq
    simp [hnil] at hhead
  have hready : w.pool.readyIdx = idx :: { w.pool with rTail := w.pool.rTail + 1 }.readyIdx := by
    have hpop : Ring.entries w.pool.readyRing w.pool.nbuf w.pool.rTail w.pool.rHead = _ :=
      Ring.entries_pop hne
    rw [Pool.readyIdx, hpop] at hhead ⊢
    rw [List.head?_cons, Option.some_inj] at hhead
    rw [hhead]
    rfl
  constructor
  case nbuf => simpa [hstep] using h.nbuf
  case place =>
    have hplace := h.place
    rw [World.places, hready] at hplace
    rw [hstep, World.places]
    refine List.Perm.trans ?_ hplace
    rw [List.perm_iff_count]
    intro a
    simp only [List.count_append, List.count_cons, List.count_nil, Pool.free]
    omega
  case order =>
    have horder := h.order
    rw [Pool.ready, hready, List.map_cons, hl] at horder
    rw [published_snoc, taken_snoc, Trace.entry_label, hstep]
    simp only [List.append_assoc, List.singleton_append]
    exact horder
  case producer =>
    rw [hstep]
    exact h.producer.frame rfl rfl rfl rfl rfl (List.prefix_refl _)
  case consumer => simp [hstep, Consumer.Ok]

theorem good_freeEntry (h : Inv n w hist) {hd : UInt32} (hp : w.consumer = .freeEntry idx hd)
    (hclear : Ring.Clear w.pool.nbuf w.pool.fTail hd) :
    Inv n (w.step .consumer).1 (hist ++ [Trace.entry World.step w .consumer]) := by
  have hok := h.consumer
  simp only [hp, Consumer.Ok] at hok
  obtain ⟨hmem, rfl⟩ := hok
  have hstep : w.step .consumer = ({ w with
      pool := { w.pool with
        freeRing := Function.update w.pool.freeRing (w.pool.fHead % w.pool.nbuf) idx }
      consumer := .freeStore idx w.pool.fHead }, .quiet) := by
    simp [World.step, World.stepConsumer, hp]
  have hfree : { w.pool with
      freeRing := Function.update w.pool.freeRing (w.pool.fHead % w.pool.nbuf) idx }.free =
        w.pool.free := Ring.entries_store hclear
  refine h.stay (x := Trace.entry World.step w .consumer) ?_ ?_ ?_ ?_ ?_ ?_ ?_ ?_ ?_
  all_goals simp only [Trace.entry_after, Trace.entry_label, hstep]
  · exact hfree
  · rfl
  · simp
  · simp
  · refine h.producer.frame rfl rfl rfl rfl rfl ?_
    simp only [hfree, List.prefix_rfl]
  · exact ⟨hmem, rfl, Function.update_self _ _ _⟩

theorem good_release (h : Inv n w hist) (hn : n.toNat ≤ 1024) {hd : UInt32}
    (hp : w.consumer = .freeStore idx hd) :
    Inv n (w.step .consumer).1 (hist ++ [Trace.entry World.step w .consumer]) := by
  have hok := h.consumer
  simp only [hp, Consumer.Ok] at hok
  obtain ⟨hmem, rfl, hentry⟩ := hok
  have hstep : w.step .consumer = ({ w with
      pool := { w.pool with fHead := w.pool.fHead + 1 }
      consumer := .idle
      held := w.held.erase idx }, .released idx) := by
    simp [World.step, World.stepConsumer, hp]
  have hfree : { w.pool with fHead := w.pool.fHead + 1 }.free = w.pool.free ++ [idx] := by
    have hcount := h.length
    simp only [Pool.free, Ring.length_entries] at hcount
    have hpush : Ring.entries w.pool.freeRing w.pool.nbuf w.pool.fTail (w.pool.fHead + 1) = _ :=
      Ring.entries_push (by omega)
    rw [hentry] at hpush
    exact hpush
  constructor
  case nbuf => simpa [hstep] using h.nbuf
  case place =>
    rw [hstep, World.places]
    refine List.Perm.trans ?_ h.place
    rw [List.perm_iff_count]
    intro a
    have herase := (List.perm_cons_erase hmem).count_eq a
    simp only [hfree, World.places, List.count_append, List.count_cons, List.count_nil,
      Pool.readyIdx] at herase ⊢
    omega
  case order =>
    rw [published_snoc, taken_snoc, Trace.entry_label, hstep]
    exact h.order
  case producer =>
    rw [hstep]
    refine h.producer.frame rfl rfl rfl rfl rfl ?_
    rw [hfree]
    exact List.prefix_append _ _
  case consumer => simp [hstep, Consumer.Ok]

theorem good_consumer (h : Inv n w hist) (hn : n.toNat ≤ 1024)
    (hclear : ∀ idx hd, w.consumer = .freeEntry idx hd →
      Ring.Clear w.pool.nbuf w.pool.fTail hd) :
    Inv n (w.step .consumer).1 (hist ++ [Trace.entry World.step w .consumer]) := by
  have hstill : ∀ (c : Consumer) (l : Label), w.step .consumer = ({ w with consumer := c }, l) →
      (∀ idx len, l ≠ .published idx len) → (∀ idx len, l ≠ .taken idx len) →
      c.Ok w.pool w.held →
      Inv n (w.step .consumer).1 (hist ++ [Trace.entry World.step w .consumer]) := by
    intro c l hstep hpub htak hok
    refine h.still (x := Trace.entry World.step w .consumer) ?_ ?_ ?_ ?_ ?_ ?_ ?_
    all_goals simp only [Trace.entry_after, Trace.entry_label, hstep]
    · exact hpub
    · exact htak
    · exact h.producer
    · exact hok
  have hok := h.consumer
  cases hp : w.consumer with
  | idle =>
    have hstep : w.step .consumer = (w, .quiet) := by simp [World.step, World.stepConsumer, hp]
    exact hstill w.consumer .quiet hstep (by simp) (by simp) hok
  | take =>
    exact hstill (.takeHead w.pool.rTail) .quiet (by simp [World.step, World.stepConsumer, hp]) (by simp)
      (by simp) rfl
  | takeHead t =>
    simp only [hp, Consumer.Ok] at hok
    by_cases hempty : t = w.pool.rHead
    · exact hstill .idle .empty (by simp [World.step, World.stepConsumer, hp, hempty]) (by simp)
        (by simp) trivial
    · refine hstill (.takeEntry t) .quiet (by simp [World.step, World.stepConsumer, hp, hempty])
        (by simp) (by simp) ⟨hok, ?_⟩
      rwa [← hok]
  | takeEntry t =>
    simp only [hp, Consumer.Ok] at hok
    obtain ⟨rfl, hne⟩ := hok
    refine hstill (.takeLen w.pool.rTail (w.pool.readyRing (w.pool.rTail % w.pool.nbuf))) .quiet
      (by simp [World.step, World.stepConsumer, hp]) (by simp) (by simp) ⟨rfl, ?_⟩
    rw [Pool.readyIdx, Ring.entries_pop hne, List.head?_cons]
  | takeLen t idx =>
    simp only [hp, Consumer.Ok] at hok
    exact hstill (.takeStore t idx (w.pool.lenArr idx)) .quiet
      (by simp [World.step, World.stepConsumer, hp]) (by simp) (by simp) ⟨hok.1, hok.2, rfl⟩
  | takeStore t idx l => exact good_take h hp
  | freeHead idx =>
    simp only [hp, Consumer.Ok] at hok
    exact hstill (.freeEntry idx w.pool.fHead) .quiet (by simp [World.step, World.stepConsumer, hp])
      (by simp) (by simp) ⟨hok, rfl⟩
  | freeEntry idx hd => exact good_freeEntry h hp (hclear idx hd hp)
  | freeStore idx hd => exact good_release h hn hp

/-! ## Calls -/

/-- A call that a side starts, or does not because it is in another. -/
theorem good_call (h : Inv n w hist) {e : Event} (hp : e ≠ .producer) (hc : e ≠ .consumer) :
    Inv n (w.step e).1 (hist ++ [Trace.entry World.step w e]) := by
  have hstill : ∀ (p : Producer) (c : Consumer),
      w.step e = ({ w with producer := p, consumer := c }, .quiet) →
      p.Ok w.pool w.loaned → c.Ok w.pool w.held →
      Inv n (w.step e).1 (hist ++ [Trace.entry World.step w e]) := by
    intro p c hstep hpok hcok
    refine h.still (x := Trace.entry World.step w e) ?_ ?_ ?_ ?_ ?_ ?_ ?_
    all_goals simp only [Trace.entry_after, Trace.entry_label, hstep]
    · simp
    · simp
    · exact hpok
    · exact hcok
  have hsame : w.step e = (w, .quiet) →
      Inv n (w.step e).1 (hist ++ [Trace.entry World.step w e]) :=
    fun hstep => hstill w.producer w.consumer hstep h.producer h.consumer
  cases e with
  | producer => exact absurd rfl hp
  | consumer => exact absurd rfl hc
  | loan =>
    cases hidle : w.producer with
    | idle => exact hstill .loan w.consumer (by simp [World.step, hidle]) trivial h.consumer
    | _ => exact hsame (by simp [World.step, hidle])
  | publish idx l =>
    cases hidle : w.producer with
    | idle =>
      by_cases hmem : idx ∈ w.loaned
      · exact hstill (.len idx l) w.consumer (by simp [World.step, hidle, hmem]) hmem h.consumer
      · exact hsame (by simp [World.step, hidle, hmem])
    | _ => exact hsame (by simp [World.step, hidle])
  | take =>
    cases hidle : w.consumer with
    | idle => exact hstill w.producer .take (by simp [World.step, hidle]) h.producer trivial
    | _ => exact hsame (by simp [World.step, hidle])
  | release idx =>
    cases hidle : w.consumer with
    | idle =>
      by_cases hmem : idx ∈ w.held
      · exact hstill w.producer (.freeHead idx) (by simp [World.step, hidle, hmem]) h.producer hmem
      · exact hsame (by simp [World.step, hidle, hmem])
    | _ => exact hsame (by simp [World.step, hidle])

theorem good_step (h : Inv n w hist) (hn : n.toNat ≤ 1024) (e : Event)
    (hc : Clear (Trace.entry World.step w e)) :
    Inv n (w.step e).1 (hist ++ [Trace.entry World.step w e]) := by
  by_cases hp : e = .producer
  · subst hp
    exact good_producer h hn (hc.ready rfl)
  · by_cases hcons : e = .consumer
    · subst hcons
      exact good_consumer h hn (hc.free rfl)
    · exact good_call h hp hcons

/-- A buffer that was just loaned is in the producer's hands. -/
theorem mem_loaned_of_label {e : Event} (hl : (w.step e).2 = .loaned idx) :
    idx ∈ (w.step e).1.loaned := by
  cases e with
  | producer =>
    simp only [World.step, World.stepProducer] at hl ⊢
    split at hl
    all_goals try split at hl
    all_goals simp_all
  | consumer =>
    simp only [World.step, World.stepConsumer] at hl
    split at hl
    all_goals try split at hl
    all_goals simp_all
  | loan =>
    simp only [World.step] at hl
    split at hl <;> simp_all
  | take =>
    simp only [World.step] at hl
    split at hl <;> simp_all
  | publish i l =>
    simp only [World.step] at hl
    split at hl
    all_goals try split at hl
    all_goals simp_all
  | release i =>
    simp only [World.step] at hl
    split at hl
    all_goals try split at hl
    all_goals simp_all

theorem Inv.owned {e : Event}
    (h : Inv n (w.step e).1 (hist ++ [Trace.entry World.step w e])) :
    Owned n hist (Trace.entry World.step w e) := by
  refine ⟨h.place, h.order, ?_⟩
  intro idx hl
  exact (h.of_loaned (mem_loaned_of_label hl)).2.2

/-- An entry that is stored over another puts one buffer into two places. -/
theorem Inv.clear (h : Inv n w hist) {e : Event}
    (ho : Owned n hist (Trace.entry World.step w e)) : Clear (Trace.entry World.step w e) := by
  have hnodup := ho.place.nodup_iff.mpr (nodup_buffers n)
  have hcount := List.nodup_iff_count_le_one.mp hnodup
  constructor
  case ready =>
    rintro he idx l hd hp
    subst he
    by_contra hnot
    rw [Trace.entry_before] at hp hnot
    have hok := h.producer
    simp only [hp, Producer.Ok] at hok
    obtain ⟨hmem, -, rfl⟩ := hok
    have hready : idx ∈ Ring.entries
        (Function.update w.pool.readyRing (w.pool.rHead % w.pool.nbuf) idx) _ _ _ :=
      Ring.mem_entries_store hnot
    have htwice := hcount idx
    simp only [Trace.entry_after, World.step, World.stepProducer, hp, World.places,
      List.count_append, Pool.readyIdx] at htwice
    have hone := List.one_le_count_iff.mpr hready
    have hone' := List.one_le_count_iff.mpr hmem
    omega
  case free =>
    rintro he idx hd hp
    subst he
    by_contra hnot
    rw [Trace.entry_before] at hp hnot
    have hok := h.consumer
    simp only [hp, Consumer.Ok] at hok
    obtain ⟨hmem, rfl⟩ := hok
    have hfree : idx ∈ Ring.entries
        (Function.update w.pool.freeRing (w.pool.fHead % w.pool.nbuf) idx) _ _ _ :=
      Ring.mem_entries_store hnot
    have htwice := hcount idx
    simp only [Trace.entry_after, World.step, World.stepConsumer, hp, World.places,
      List.count_append, Pool.free] at htwice
    have hone := List.one_le_count_iff.mpr hfree
    have hone' := List.one_le_count_iff.mpr hmem
    omega

end Steps

/-- A step of a pool whose rings have a power of two of slots. -/
theorem Inv.clear_of_dvd {n : UInt32} {w : World} {hist : List Step} (h : Inv n w hist)
    (hn : n.toNat ∣ 2 ^ 32) (e : Event) : Clear (Trace.entry World.step w e) := by
  have hcount := h.length
  simp only [Pool.free, Pool.readyIdx, Ring.length_entries] at hcount
  constructor
  case ready =>
    rintro - idx l hd hp
    have hok := h.producer
    rw [Trace.entry_before] at hp ⊢
    simp only [hp, Producer.Ok] at hok
    obtain ⟨hmem, -, rfl⟩ := hok
    have hpos := List.length_pos_of_mem hmem
    rw [h.nbuf]
    exact Ring.clear_of_dvd hn (by omega)
  case free =>
    rintro - idx hd hp
    have hok := h.consumer
    rw [Trace.entry_before] at hp ⊢
    simp only [hp, Consumer.Ok] at hok
    obtain ⟨hmem, rfl⟩ := hok
    have hpos := List.length_pos_of_mem hmem
    rw [h.nbuf]
    exact Ring.clear_of_dvd hn (by omega)

/-- A pool after `bulk_init`. -/
theorem inv_init (c : Config) (b : Pool) : Inv c.nbuf { pool := b.init c.nbuf } [] := by
  have hbounds := c.bounds
  have hcount : (c.nbuf - 0).toNat = c.nbuf.toNat := by rw [UInt32.sub_zero]
  have hfree : (b.init c.nbuf).free = buffers c.nbuf := by
    rw [Pool.free, Ring.entries]
    simp only [Pool.init, hcount]
    apply List.map_congr_left
    intro k hk
    have hk' := List.mem_range.mp hk
    have hslot : Ring.slot c.nbuf 0 k = UInt32.ofNat k := by
      apply UInt32.toNat_inj.mp
      rw [Ring.toNat_slot, UInt32.toNat_ofNat', show (0 : UInt32).toNat = 0 by rfl, Nat.zero_add,
        Nat.mod_eq_of_lt (a := k) (by omega), Nat.mod_eq_of_lt hk']
    have hlt : UInt32.ofNat k < c.nbuf := by
      rw [UInt32.lt_iff_toNat_lt, UInt32.toNat_ofNat', Nat.mod_eq_of_lt (by omega)]
      exact hk'
    rw [hslot, if_pos hlt]
  have hready : (b.init c.nbuf).readyIdx = [] := Ring.entries_eq_nil_iff.mpr rfl
  constructor
  case nbuf => rfl
  case place => simp [World.places, hfree, hready]
  case order => simp [published, taken, Pool.ready, hready]
  case producer => trivial
  case consumer => trivial

/-- The pool keeps each buffer in one place and each published one in order, in exactly the runs in
which no entry is stored over another. -/
theorem owned_iff_clear (c : Config) (b : Pool) (es : List Event) :
    Trace.Along (Owned c.nbuf) (Trace.history World.step { pool := b.init c.nbuf } es) ↔
      ∀ x ∈ Trace.history World.step { pool := b.init c.nbuf } es, Clear x := by
  constructor
  · intro ho
    have hrun := (Trace.run_along (inv_init c b) (P := fun _ x => Clear x) ?_ es ho).2
    · intro x hx
      obtain ⟨before, after, heq⟩ := List.append_of_mem hx
      exact hrun before x after heq
    · intro es e h howned
      have hclear := h.clear howned
      exact ⟨good_step h c.bounds.2 e hclear, hclear⟩
  · intro hc
    refine (Trace.run_along (inv_init c b) ?_ es
      (Trace.along_of_forall (P := fun _ x => Clear x) fun x hx _ => hc x hx)).2
    intro es e h hclear
    have hinv := good_step h c.bounds.2 e hclear
    exact ⟨hinv, hinv.owned⟩

/-- With a power of two of buffers the pool keeps them in every run, however long. -/
theorem owned_of_dvd (c : Config) (hn : c.nbuf.toNat ∣ 2 ^ 32) (b : Pool) (es : List Event) :
    Trace.Along (Owned c.nbuf) (Trace.history World.step { pool := b.init c.nbuf } es) := by
  refine (Trace.run_along (C := fun _ _ => True) (inv_init c b) ?_ es fun _ _ _ _ => trivial).2
  intro es e h _
  have hinv := good_step h c.bounds.2 e (h.clear_of_dvd hn e)
  exact ⟨hinv, hinv.owned⟩

/-! ### Three buffers -/

def benchConfig : Config where
  name := "window"
  nbuf := 3
  accepted := (validateNbuf_eq_nil_iff _ _).mpr (by decide)

/-- A pool of three in which one buffer at a time has gone round `k` times. -/
def benchPool (k : UInt32) : Pool where
  nbuf := 3
  rHead := k
  fTail := k
  overflows := 0
  rTail := k
  fHead := k + 3
  freeRing := id
  readyRing := id
  lenArr := fun _ => 0

/-- A buffer is loaned, published and taken, and its entry in the free ring is stored. -/
def benchLap (idx : UInt32) : List Event :=
  [.loan, .producer, .producer, .producer, .producer, .publish idx 0, .producer, .producer,
    .producer, .producer, .take, .consumer, .consumer, .consumer, .consumer, .consumer,
    .release idx, .consumer]

theorem benchLap_final (k : UInt32) (h : (k + 3) % 3 = k % 3) :
    Trace.final World.step { pool := benchPool k } (benchLap (k % 3) ++ [.consumer, .consumer]) =
      { pool := benchPool (k + 1) } := by
  have hne : k ≠ k + 3 := by
    intro heq
    have hnat := congrArg UInt32.toNat heq
    have hlt := k.toNat_lt
    rw [UInt32.toNat_add, show (3 : UInt32).toNat = 3 by rfl] at hnat
    omega
  have hne' : k ≠ k + 1 := by
    intro heq
    have hnat := congrArg UInt32.toNat heq
    have hlt := k.toNat_lt
    rw [UInt32.toNat_add, show (1 : UInt32).toNat = 1 by rfl] at hnat
    omega
  have hready : Function.update (id : UInt32 → UInt32) (k % 3) (k % 3) = id :=
    Function.update_eq_self (k % 3) id
  have hnext : k + 3 + 1 = k + 1 + 3 := by ac_rfl
  simp [benchLap, benchPool, Trace.final_cons, World.step, World.stepProducer, World.stepConsumer,
    hne, hne', hready, h, hnext]

/-- The laps before the cursor of the free ring wraps. -/
def benchLaps : ℕ → List Event
  | 0 => []
  | k + 1 => benchLaps k ++ (benchLap (UInt32.ofNat k % 3) ++ [.consumer, .consumer])

theorem benchLaps_final {k : ℕ} (hk : k + 3 ≤ 2 ^ 32) :
    Trace.final World.step { pool := benchPool 0 } (benchLaps k) =
      { pool := benchPool (UInt32.ofNat k) } := by
  induction k with
  | zero => rfl
  | succ k ih =>
    rw [benchLaps, Trace.final_append, ih (by omega), benchLap_final, UInt32.ofNat_add]
    · rfl
    · apply UInt32.toNat_inj.mp
      rw [UInt32.toNat_mod, UInt32.toNat_mod, UInt32.toNat_add, UInt32.toNat_ofNat',
        show (3 : UInt32).toNat = 3 by rfl]
      omega

/-- The cursor of the free ring wraps with two entries before it: the buffer that comes back is
stored over one of them. -/
theorem wrap_loses :
    ¬∀ (c : Config) (b : Pool) (es : List Event),
      Trace.Along (Owned c.nbuf) (Trace.history World.step { pool := b.init c.nbuf } es) := by
  intro h
  have hinit : (benchPool 0).init benchConfig.nbuf = benchPool 0 := by
    have hfree : ((benchPool 0).init benchConfig.nbuf).freeRing = id := by
      funext i
      simp [Pool.init, benchPool]
    rw [show (benchPool 0).init benchConfig.nbuf = { benchPool 0 with
      freeRing := ((benchPool 0).init benchConfig.nbuf).freeRing } from rfl, hfree]
    rfl
  have hrun := h benchConfig (benchPool 0) (benchLaps (2 ^ 32 - 3) ++ benchLap 1 ++ [.consumer])
  rw [hinit, Trace.history_snoc, Trace.along_snoc, Trace.final_append,
    benchLaps_final (by omega)] at hrun
  have hplace := hrun.2.place
  revert hplace
  decide

end BloblyEmb.Bulk
