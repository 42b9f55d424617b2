import Mathlib.Algebra.Order.Ring.Nat
import BloblyEmb.Xioc.Channel

/-!
# No read is torn

What a read of the channel hands over, on every interleaving of its two threads. The reader copies
a slot while the writer may fill it again, or initialise the channel with another width under it; the
sequence word that it looks at last is the proof that neither happened.
-/
namespace BloblyEmb.Xioc

/-! ## What a run shows -/

structure Log where
  begun : List Publication := []
  published : List Publication := []
  delivered : List Publication := []

def Log.note (g : Log) : Label → Log
  | .begun p => { g with begun := p :: g.begun }
  | .published p => { g with published := p :: g.published }
  | .delivered _ (.seq p) _ => { g with delivered := p :: g.delivered }
  | _ => g

abbrev Step := Trace.Entry World Event Label

def log (hist : List Step) : Log := hist.foldl (fun g x => g.note x.label) {}

theorem log_snoc (hist : List Step) (x : Step) : log (hist ++ [x]) = (log hist).note x.label := by
  simp [log]

/-- What a channel promises of every step. -/
structure Whole (g : Log) (x : Step) : Prop where
  /-- A read that returns 1 hands over one value that was published, of the width of the reader, and
  a later one than every read before it. -/
  delivered : ∀ dstWords m value, x.label = .delivered dstWords m value →
    ∃ p ∈ g.published, m = .seq p ∧ value = p.value ∧ value.length = dstWords ∧
      x.after.dst = value ∧ ∀ q ∈ g.delivered, q.id < p.id
  /-- One that returns 0 leaves what was there. -/
  refused : x.label = .refused → x.after.dst = x.before.dst ∧ x.after.rdSeq = x.before.rdSeq
  /-- Publications have their places in the order in which they are published. -/
  published : ∀ p, x.label = .published p → ∀ q ∈ g.published, q.id < p.id

/-- The bounds on a run: a read is not lapped by all the numbers there are, seeds do not repeat a
number, and where the reader looks for the number of its publish, no value has put the same one. -/
structure Careful (k : Kind) (g : Log) (x : Step) : Prop where
  lap : ∀ dstWords n p v tmp, x.event = .reader →
    x.before.reader = .recheck dstWords n (.seq p) v tmp → x.before.count < p.id + 2 ^ 32
  seeds : ∀ p, x.label = .begun p → ∀ q ∈ g.begun, q.start ≠ p.start → q.num ≠ p.num
  masked : ∀ dstWords n m v tmp, x.event = .reader →
    x.before.reader = .recheck dstWords n m v tmp →
    (x.before.cell (k.slot n v)).mark = .data → (x.before.cell (k.slot n v)).val ≠ n

/-! ## Numbers -/

theorem nextSeq_ne_zero (n : UInt32) : nextSeq n ≠ 0 := by
  simp only [nextSeq]
  split
  · decide
  · assumption

/-- The numbers go around: all but 0 before one comes again. -/
theorem toNat_nextSeq (n : UInt32) :
    (nextSeq n).toNat = if n.toNat + 1 = 2 ^ 32 then 1 else n.toNat + 1 := by
  have hn : n.toNat < 2 ^ 32 := n.toNat_lt
  have hadd : (n + 1).toNat = (n.toNat + 1) % 2 ^ 32 := UInt32.toNat_add n 1
  simp only [nextSeq, ← UInt32.toNat_inj, hadd, UInt32.toNat_zero]
  by_cases hmax : n.toNat + 1 = 2 ^ 32
  · rw [if_pos hmax, hmax, if_pos (Nat.mod_self _)]
    rfl
  · rw [if_neg hmax, Nat.mod_eq_of_lt (by omega), if_neg (by omega), hadd,
      Nat.mod_eq_of_lt (by omega)]

/-- The numbers go around: all but 0 before one comes again. -/
theorem toNat_iterate {n : UInt32} (hn : 0 < n.toNat) (d : ℕ) :
    (nextSeq^[d] n).toNat = (n.toNat - 1 + d) % (2 ^ 32 - 1) + 1 := by
  have hlt : n.toNat < 2 ^ 32 := n.toNat_lt
  induction d with
  | zero =>
    rw [Function.iterate_zero_apply, Nat.add_zero, Nat.mod_eq_of_lt (by omega)]
    omega
  | succ d ih =>
    rw [Function.iterate_succ_apply', toNat_nextSeq, ih]
    split <;> omega

theorem iterate_ne (s : UInt32) {a b : ℕ} (ha : 0 < a) (hab : a < b) (hb : b < a + (2 ^ 32 - 1)) :
    nextSeq^[a] s ≠ nextSeq^[b] s := by
  have hpos : 0 < (nextSeq s).toNat := by
    rw [toNat_nextSeq]
    split <;> omega
  obtain ⟨a, rfl⟩ := Nat.exists_eq_add_of_lt ha
  obtain ⟨d, rfl⟩ := Nat.exists_eq_add_of_lt hab
  intro heq
  have hnat := congrArg UInt32.toNat heq
  rw [show 0 + a + 1 = a + 1 by omega, show a + 1 + d + 1 = a + 1 + d + 1 by omega,
    Function.iterate_succ_apply, Function.iterate_succ_apply, toNat_iterate hpos,
    toNat_iterate hpos] at hnat
  omega

/-! ## Slots -/

theorem slot_apart {a b s width i j : ℕ} (h : a * s + 1 + i = b * s + j) (hi : i < width)
    (hj : j ≤ width) (hs : 1 + width ≤ s) : a = b := by
  rcases Nat.lt_trichotomy a b with hlt | rfl | hlt
  · have hmul := Nat.mul_le_mul_right s (Nat.succ_le_of_lt hlt)
    rw [Nat.succ_mul] at hmul
    omega
  · rfl
  · have hmul := Nat.mul_le_mul_right s (Nat.succ_le_of_lt hlt)
    rw [Nat.succ_mul] at hmul
    omega

theorem slot_lt (k : Kind) (n : UInt32) {words j : ℕ} (hj : j < k.stride words) :
    k.slot n words + j < slots * k.stride words := by
  have hmod : n.toNat % slots < slots := Nat.mod_lt _ (by decide)
  have hmul := Nat.mul_le_mul_right (k.stride words) (Nat.succ_le_of_lt hmod)
  rw [Nat.succ_mul] at hmul
  simp only [Kind.slot]
  omega

/-! ## The invariant -/

/-- `q` is `p`, or a later publication. -/
def Later (p q : Publication) : Prop := q = p ∨ p.id < q.id

/-- The words of the channel: a sequence number stands in its place, with its value behind it. -/
structure Memory (k : Kind) (w : World) : Prop where
  blank : ∀ c, (w.cell c).mark = .blank → (w.cell c).val = 0
  seq : ∀ c p, (w.cell c).mark = .seq p → c = k.slot p.num p.width ∧ (w.cell c).val = p.num ∧
    ∀ i < p.width, (w.cell (c + 1 + i)).val = p.value.getD i 0
  extent : ∀ c < slots * k.stride w.words, ∀ p, (w.cell c).mark = .seq p →
    p.width = w.words ∧ w.start ≤ p.id

structure Numbers (w : World) (g : Log) : Prop where
  formed : ∀ p ∈ g.begun, p.num ≠ 0 ∧ p.value.length = p.width ∧ p.start ≤ p.id ∧
    p.id < w.count ∧ p.num = nextSeq^[p.id + 1 - p.start] p.seed
  current : ∀ p ∈ g.begun, p.start = w.start → p.seed = w.seed
  seeds : ∀ p ∈ g.begun, ∀ q ∈ g.begun, p.start = q.start → p.seed = q.seed
  fresh : ∀ p ∈ g.begun, ∀ q ∈ g.begun, p.start ≠ q.start → p.num ≠ q.num
  wseq : w.wseq = nextSeq^[w.count - w.start] w.seed
  start : w.start ≤ w.count

/-- Nothing older than the publication has its number at this place. -/
def Newest (w : World) (c : ℕ) (p : Publication) : Prop :=
  ∀ q, (w.cell c).mark = .seq q → Later p q

def Latest (k : Kind) (w : World) (g : Log) : Prop :=
  w.latest = .zero ∨ ∃ p ∈ g.published, w.latest = ⟨p.num, .seq p⟩ ∧ p.width = w.words ∧
    Newest w (k.slot p.num p.width) p

/-- The publication that the writer is at. -/
structure Current (w : World) (g : Log) (p : Publication) : Prop where
  begun : p ∈ g.begun
  id : p.id + 1 = w.count
  width : p.width = w.words
  start : w.start ≤ p.id
  last : ∀ q ∈ g.published, q.id < p.id

/-- The writer has invalidated its slot, and stored so many words of the value. -/
structure Stored (k : Kind) (w : World) (g : Log) (p : Publication) (i : ℕ) : Prop where
  current : Current w g p
  invalid : ∀ q, (w.cell (k.slot p.num p.width)).mark ≠ .seq q
  words : ∀ j < i, (w.cell (k.slot p.num p.width + 1 + j)).val = p.value.getD j 0

def WriterAt (k : Kind) (w : World) (g : Log) : Writer → Prop
  | .idle => True
  | .retract _ _ => k = .wide
  | .clear words _ i => k = .wide ∧ w.latest = .zero ∧ i < slots * k.stride words ∧
    ∀ c < i, (w.cell c).mark = .blank
  | .geometry words _ => k = .wide ∧ w.latest = .zero ∧
    ∀ c < slots * k.stride words, (w.cell c).mark = .blank
  | .invalidate p => Current w g p
  | .payload p i => Stored k w g p i ∧ i < p.width
  | .validate p => Stored k w g p p.width
  | .publish p => Current w g p ∧ (w.cell (k.slot p.num p.width)).mark = .seq p

/-- The publication that the reader is at. -/
structure Holds (w : World) (g : Log) (p : Publication) : Prop where
  published : p ∈ g.published
  later : ∀ q ∈ g.delivered, q.id < p.id
  ahead : ∀ r, w.latest.mark = .seq r → Later p r

/-- While the number of the publication stands, what was copied is of its value. -/
structure Reads (k : Kind) (w : World) (p : Publication) (v : ℕ) (tmp : List UInt32) : Prop where
  newest : Newest w (k.slot p.num v) p
  whole : (w.cell (k.slot p.num v)).mark = .seq p → p.width = v ∧ tmp = p.value.take tmp.length

def ReaderAt (k : Kind) (w : World) (g : Log) : Reader → Prop
  | .idle | .latest _ => True
  | .words _ n m => ∃ p, Holds w g p ∧ n = p.num ∧ m = .seq p ∧
    ((p.width = w.words ∧ Newest w (k.slot p.num p.width) p) ∨ p.id < w.start)
  | .copy dstWords n m v tmp => ∃ p, Holds w g p ∧ n = p.num ∧ m = .seq p ∧ v = dstWords ∧
    tmp.length < v ∧ Reads k w p v tmp
  | .recheck dstWords n m v tmp => ∃ p, Holds w g p ∧ n = p.num ∧ m = .seq p ∧ v = dstWords ∧
    tmp.length = v ∧ Reads k w p v tmp

structure Inv (k : Kind) (w : World) (g : Log) : Prop where
  width : w.words = k.width w.words
  memory : Memory k w
  numbers : Numbers w g
  marked : ∀ c p, (w.cell c).mark = .seq p → p ∈ g.begun
  published : ∀ p ∈ g.published, p ∈ g.begun
  latest : Latest k w g
  writer : WriterAt k w g w.writer
  reader : ReaderAt k w g w.reader
  /-- The last value delivered is at least as late as all before it. -/
  order : ∀ q ∈ g.delivered, ∃ p ∈ g.published, w.rdSeq = p.num ∧ q.id ≤ p.id ∧
    ∀ r, w.latest.mark = .seq r → Later p r

theorem Inv.fits {k : Kind} {w : World} {g : Log} (h : Inv k w g) :
    1 + w.words ≤ k.stride w.words := by
  have hw := h.width
  cases k with
  | pair =>
    simp only [Kind.width] at hw
    simp [Kind.stride, hw]
  | wide => exact Nat.le_refl _

/-! ## Threads that move -/

section Threads

variable {k : Kind} {w w' : World} {g g' : Log}

theorem Current.of_same {p : Publication} (h : Current w g p) (hw : w'.words = w.words)
    (hn : w'.count = w.count) (hs : w'.start = w.start) (hb : g'.begun = g.begun)
    (hp : g'.published = g.published) : Current w' g' p where
  begun := hb ▸ h.begun
  id := h.id.trans hn.symm
  width := h.width.trans hw.symm
  start := hs ▸ h.start
  last := hp ▸ h.last

theorem Stored.of_same {p : Publication} {i : ℕ} (h : Stored k w g p i) (hc : w'.cell = w.cell)
    (hw : w'.words = w.words) (hn : w'.count = w.count) (hs : w'.start = w.start)
    (hb : g'.begun = g.begun) (hp : g'.published = g.published) : Stored k w' g' p i where
  current := h.current.of_same hw hn hs hb hp
  invalid := by simpa only [hc] using h.invalid
  words := by simpa only [hc] using h.words

theorem Stored.cast {p : Publication} {i j : ℕ} (h : Stored k w g p i) (hij : i = j) :
    Stored k w g p j := hij ▸ h

theorem WriterAt.of_same {t : Writer} (h : WriterAt k w g t) (hc : w'.cell = w.cell)
    (hl : w'.latest = w.latest) (hw : w'.words = w.words) (hn : w'.count = w.count)
    (hs : w'.start = w.start) (hb : g'.begun = g.begun) (hp : g'.published = g.published) :
    WriterAt k w' g' t := by
  cases t with
  | idle => trivial
  | retract words seed => exact h
  | clear words seed i => simpa only [WriterAt, hc, hl] using h
  | geometry words seed => simpa only [WriterAt, hc, hl] using h
  | invalidate p => exact Current.of_same h hw hn hs hb hp
  | payload p i => exact ⟨h.1.of_same hc hw hn hs hb hp, h.2⟩
  | validate p => exact Stored.of_same h hc hw hn hs hb hp
  | publish p => exact ⟨h.1.of_same hw hn hs hb hp, by simpa only [hc] using h.2⟩

theorem Holds.of_same {p : Publication} (h : Holds w g p) (hl : w'.latest = w.latest)
    (hp : g'.published = g.published) (hd : g'.delivered = g.delivered) : Holds w' g' p where
  published := hp ▸ h.published
  later := hd ▸ h.later
  ahead := by simpa only [hl] using h.ahead

theorem Newest.of_same {p : Publication} {c : ℕ} (h : Newest w c p) (hc : w'.cell = w.cell) :
    Newest w' c p := by
  simpa only [Newest, hc] using h

theorem Reads.of_same {p : Publication} {v : ℕ} {tmp : List UInt32} (h : Reads k w p v tmp)
    (hc : w'.cell = w.cell) : Reads k w' p v tmp where
  newest := h.newest.of_same hc
  whole := by simpa only [hc] using h.whole

theorem ReaderAt.of_same {t : Reader} (h : ReaderAt k w g t) (hc : w'.cell = w.cell)
    (hl : w'.latest = w.latest) (hw : w'.words = w.words) (hs : w'.start = w.start)
    (hp : g'.published = g.published) (hd : g'.delivered = g.delivered) :
    ReaderAt k w' g' t := by
  cases t with
  | idle => trivial
  | latest dstWords => trivial
  | words dstWords n m =>
    obtain ⟨p, hheld, hn, hm, hwhere⟩ := h
    refine ⟨p, hheld.of_same hl hp hd, hn, hm, ?_⟩
    rw [hw, hs]
    exact hwhere.imp_left fun hx => ⟨hx.1, hx.2.of_same hc⟩
  | copy dstWords n m v tmp =>
    obtain ⟨p, hheld, hn, hm, hv, hlen, hreads⟩ := h
    exact ⟨p, hheld.of_same hl hp hd, hn, hm, hv, hlen, hreads.of_same hc⟩
  | recheck dstWords n m v tmp =>
    obtain ⟨p, hheld, hn, hm, hv, hlen, hreads⟩ := h
    exact ⟨p, hheld.of_same hl hp hd, hn, hm, hv, hlen, hreads.of_same hc⟩

theorem Latest.of_same (h : Latest k w g) (hc : w'.cell = w.cell) (hl : w'.latest = w.latest)
    (hw : w'.words = w.words) (hp : g'.published = g.published) : Latest k w' g' := by
  rcases h with hzero | ⟨p, hmem, hlat, hwidth, hnew⟩
  · exact .inl (hl.trans hzero)
  · exact .inr ⟨p, hp ▸ hmem, hl.trans hlat, hwidth.trans hw.symm, hnew.of_same hc⟩

theorem Memory.of_same (h : Memory k w) (hc : w'.cell = w.cell) (hw : w'.words = w.words)
    (hs : w'.start = w.start) : Memory k w' where
  blank := by simpa only [hc] using h.blank
  seq := by simpa only [hc] using h.seq
  extent := by simpa only [hc, hw, hs] using h.extent

/-- The reader goes on, and nothing else. -/
theorem Inv.setReader (h : Inv k w g) {t : Reader} (ht : ReaderAt k w g t) :
    Inv k { w with reader := t } g where
  width := h.width
  memory := h.memory.of_same rfl rfl rfl
  numbers := ⟨h.numbers.formed, h.numbers.current, h.numbers.seeds, h.numbers.fresh,
    h.numbers.wseq, h.numbers.start⟩
  marked := h.marked
  published := h.published
  latest := h.latest.of_same rfl rfl rfl rfl
  writer := h.writer.of_same rfl rfl rfl rfl rfl rfl rfl
  reader := ht.of_same rfl rfl rfl rfl rfl rfl
  order := h.order

theorem Inv.setWriter (h : Inv k w g) {t : Writer} (ht : WriterAt k w g t) :
    Inv k { w with writer := t } g where
  width := h.width
  memory := h.memory.of_same rfl rfl rfl
  numbers := ⟨h.numbers.formed, h.numbers.current, h.numbers.seeds, h.numbers.fresh,
    h.numbers.wseq, h.numbers.start⟩
  marked := h.marked
  published := h.published
  latest := h.latest.of_same rfl rfl rfl rfl
  writer := ht.of_same rfl rfl rfl rfl rfl rfl rfl
  reader := h.reader.of_same rfl rfl rfl rfl rfl rfl
  order := h.order

end Threads

/-! ## Stores -/

section Stores

variable {k : Kind} {w : World} {g : Log} {c : ℕ} {v : Word}

theorem Memory.store (h : Memory k w) (hblank : v.mark = .blank → v.val = 0)
    (hseq : ∀ p, v.mark = .seq p → (c = k.slot p.num p.width ∧ v.val = p.num ∧
      ∀ i < p.width, (w.cell (c + 1 + i)).val = p.value.getD i 0) ∧
      p.width = w.words ∧ w.start ≤ p.id)
    (hsafe : ∀ c' p, c' ≠ c → (w.cell c').mark = .seq p → ∀ i < p.width, c' + 1 + i ≠ c) :
    Memory k (w.store c v) := by
  constructor
  case blank =>
    intro c' hc
    by_cases heq : c' = c
    · subst heq
      simp only [World.store, Function.update_self] at hc ⊢
      exact hblank hc
    · simp only [World.store, Function.update_of_ne heq] at hc ⊢
      exact h.blank c' hc
  case seq =>
    intro c' p hc
    by_cases heq : c' = c
    · subst heq
      simp only [World.store, Function.update_self] at hc ⊢
      obtain ⟨⟨hslot, hval, hwords⟩, -⟩ := hseq p hc
      refine ⟨hslot, hval, ?_⟩
      intro i hi
      rw [Function.update_of_ne (by omega)]
      exact hwords i hi
    · simp only [World.store, Function.update_of_ne heq] at hc ⊢
      obtain ⟨hslot, hval, hwords⟩ := h.seq c' p hc
      refine ⟨hslot, hval, ?_⟩
      intro i hi
      rw [Function.update_of_ne (hsafe c' p heq hc i hi)]
      exact hwords i hi
  case extent =>
    intro c' hlt p hc
    by_cases heq : c' = c
    · subst heq
      simp only [World.store, Function.update_self] at hc
      exact (hseq p hc).2
    · simp only [World.store, Function.update_of_ne heq] at hc
      exact h.extent c' hlt p hc

theorem Newest.store {c' : ℕ} {p : Publication} (h : Newest w c' p)
    (hlater : ∀ q, v.mark = .seq q → p.id < q.id) : Newest (w.store c v) c' p := by
  intro q hq
  by_cases heq : c' = c
  · subst heq
    simp only [World.store, Function.update_self] at hq
    exact .inr (hlater q hq)
  · simp only [World.store, Function.update_of_ne heq] at hq
    exact h q hq

theorem Reads.store {p : Publication} {n : ℕ} {tmp : List UInt32} (h : Reads k w p n tmp)
    (hlater : ∀ q, v.mark = .seq q → p.id < q.id) : Reads k (w.store c v) p n tmp where
  newest := h.newest.store hlater
  whole hc := by
    by_cases heq : k.slot p.num n = c
    · rw [heq] at hc
      simp only [World.store, Function.update_self] at hc
      exact absurd (hlater p hc) (Nat.lt_irrefl _)
    · simp only [World.store, Function.update_of_ne heq] at hc
      exact h.whole hc

/-- A store of the writer, on its way to its next. -/
theorem Inv.store (h : Inv k w g) (hblank : v.mark = .blank → v.val = 0)
    (hseq : ∀ p, v.mark = .seq p → Current w g p ∧ c = k.slot p.num p.width ∧ v.val = p.num ∧
      ∀ i < p.width, (w.cell (c + 1 + i)).val = p.value.getD i 0)
    (hsafe : ∀ c' p, c' ≠ c → (w.cell c').mark = .seq p → ∀ i < p.width, c' + 1 + i ≠ c)
    {next : Writer} (hnext : WriterAt k (w.store c v) g next) :
    Inv k { w.store c v with writer := next } g := by
  have hlater : ∀ p ∈ g.published, ∀ q, v.mark = .seq q → p.id < q.id :=
    fun p hp q hq => (hseq q hq).1.last p hp
  have hmemory : Memory k (w.store c v) := by
    refine h.memory.store hblank ?_ hsafe
    intro p hp
    obtain ⟨hcur, hrest⟩ := hseq p hp
    exact ⟨hrest, hcur.width, hcur.start⟩
  constructor
  case width => exact h.width
  case memory => exact ⟨hmemory.blank, hmemory.seq, hmemory.extent⟩
  case numbers =>
    exact ⟨h.numbers.formed, h.numbers.current, h.numbers.seeds, h.numbers.fresh, h.numbers.wseq,
      h.numbers.start⟩
  case marked =>
    intro c' p hc
    by_cases heq : c' = c
    · subst heq
      simp only [World.store, Function.update_self] at hc
      exact (hseq p hc).1.begun
    · simp only [World.store, Function.update_of_ne heq] at hc
      exact h.marked c' p hc
  case published => exact h.published
  case latest =>
    rcases h.latest with hzero | ⟨p, hp, hl, hw, hn⟩
    · exact .inl hzero
    · exact .inr ⟨p, hp, hl, hw, hn.store (hlater p hp)⟩
  case writer => exact hnext.of_same rfl rfl rfl rfl rfl rfl rfl
  case reader =>
    have hreader := h.reader
    show ReaderAt k _ g w.reader
    cases hr : w.reader with
    | idle => trivial
    | latest dstWords => trivial
    | words dstWords n m =>
      rw [hr] at hreader
      obtain ⟨p, hp, hn, hm, hwhere⟩ := hreader
      refine ⟨p, ⟨hp.published, hp.later, hp.ahead⟩, hn, hm, ?_⟩
      rcases hwhere with ⟨hw, hnew⟩ | hold
      · exact .inl ⟨hw, hnew.store (hlater p hp.published)⟩
      · exact .inr hold
    | copy dstWords n m n' tmp =>
      rw [hr] at hreader
      obtain ⟨p, hp, hn, hm, hv, hlen, hreads⟩ := hreader
      have hkept := hreads.store (c := c) (hlater p hp.published)
      exact ⟨p, ⟨hp.published, hp.later, hp.ahead⟩, hn, hm, hv, hlen, hkept.newest, hkept.whole⟩
    | recheck dstWords n m n' tmp =>
      rw [hr] at hreader
      obtain ⟨p, hp, hn, hm, hv, hlen, hreads⟩ := hreader
      have hkept := hreads.store (c := c) (hlater p hp.published)
      exact ⟨p, ⟨hp.published, hp.later, hp.ahead⟩, hn, hm, hv, hlen, hkept.newest, hkept.whole⟩
  case order => exact h.order

/-- Two slots of one geometry do not overlap. -/
theorem Inv.slot_safe (h : Inv k w g) {p : Publication} (hp : Current w g p) {j : ℕ}
    (hj : j ≤ p.width) {c' : ℕ} {q : Publication} (hq : (w.cell c').mark = .seq q) {i : ℕ}
    (hi : i < q.width) (heq : c' + 1 + i = k.slot p.num p.width + j) :
    c' = k.slot p.num p.width := by
  have hfits := h.fits
  have hlt : k.slot p.num p.width + j < slots * k.stride p.width := by
    refine slot_lt k p.num ?_
    rw [hp.width] at hj ⊢
    omega
  obtain ⟨hslot, -⟩ := h.memory.seq c' q hq
  have hwidth := (h.memory.extent c' (by rw [← hp.width]; omega) q hq).1
  rw [hslot, hwidth, hp.width] at heq
  rw [hwidth] at hi
  rw [hp.width] at hj
  simp only [Kind.slot] at heq
  have hsame := slot_apart heq hi hj hfits
  rw [hslot, hwidth, hp.width]
  simp only [Kind.slot, hsame]

/-- The sequence word is invalidated. -/
theorem inv_invalidate (h : Inv k w g) {p : Publication} (hw : w.writer = .invalidate p) :
    Inv k { w.store (k.slot p.num p.width) .zero with writer := .storing p 0 } g := by
  have hp : Current w g p := by
    have hwriter := h.writer
    rwa [hw] at hwriter
  refine h.store (fun _ => rfl) (by simp [Word.zero]) ?_ ?_
  · intro c' q hne hq i hi heq
    exact hne (h.slot_safe hp (Nat.zero_le _) hq hi (by simpa using heq))
  · have hstored : Stored k (w.store (k.slot p.num p.width) .zero) g p 0 := by
      refine ⟨hp.of_same rfl rfl rfl rfl rfl, ?_, by simp⟩
      intro q
      simp [World.store, Word.zero]
    simp only [Writer.storing]
    split
    · rename_i hpos
      exact ⟨hstored, hpos⟩
    · rename_i hnone
      exact hstored.cast (by omega)

theorem inv_payload (h : Inv k w g) {p : Publication} {i : ℕ} (hw : w.writer = .payload p i) :
    Inv k { w.store (k.slot p.num p.width + 1 + i) ⟨p.value.getD i 0, .data⟩ with
      writer := .storing p (i + 1) } g := by
  obtain ⟨hp, hi⟩ : Stored k w g p i ∧ i < p.width := by
    have hwriter := h.writer
    rwa [hw] at hwriter
  refine h.store (by simp) (by simp) ?_ ?_
  · intro c' q hne hq j hj heq
    have hsame := h.slot_safe hp.current (j := i + 1) hi hq hj (by omega)
    exact hp.invalid q (hsame ▸ hq)
  · have hstored : Stored k (w.store (k.slot p.num p.width + 1 + i) ⟨p.value.getD i 0, .data⟩) g p
        (i + 1) := by
      refine ⟨hp.current.of_same rfl rfl rfl rfl rfl, ?_, ?_⟩
      · intro q
        simp only [World.store]
        rw [Function.update_of_ne (by omega)]
        exact hp.invalid q
      · intro j hj
        simp only [World.store]
        by_cases heq : j = i
        · subst heq
          simp
        · rw [Function.update_of_ne (by omega)]
          exact hp.words j (by omega)
    simp only [Writer.storing]
    split
    · rename_i hmore
      exact ⟨hstored, hmore⟩
    · rename_i hnone
      exact hstored.cast (by omega)

theorem inv_validate (h : Inv k w g) {p : Publication} (hw : w.writer = .validate p) :
    Inv k { w.store (k.slot p.num p.width) ⟨p.num, .seq p⟩ with writer := .publish p } g := by
  have hp : Stored k w g p p.width := by
    have hwriter := h.writer
    rwa [hw] at hwriter
  refine h.store (by simp) ?_ ?_ ?_
  · intro q hq
    obtain rfl := Mark.seq.inj hq
    exact ⟨hp.current, rfl, rfl, hp.words⟩
  · intro c' q hne hq i hi heq
    exact hne (h.slot_safe hp.current (Nat.zero_le _) hq hi (by simpa using heq))
  · exact ⟨hp.current.of_same rfl rfl rfl rfl rfl, by simp [World.store]⟩

theorem inv_clear (h : Inv k w g) {words i : ℕ} {seed : UInt32}
    (hw : w.writer = .clear words seed i) :
    Inv k { w.store i .zero with
      writer := if i + 1 < slots * k.stride words then .clear words seed (i + 1)
        else .geometry words seed } g := by
  obtain ⟨hk, hl, hi, hblank⟩ : k = .wide ∧ w.latest = .zero ∧ i < slots * k.stride words ∧
      ∀ c < i, (w.cell c).mark = .blank := by
    have hwriter := h.writer
    rwa [hw] at hwriter
  have hnext : ∀ c < i + 1, ((w.store i .zero).cell c).mark = .blank := by
    intro c hc
    by_cases heq : c = i
    · simp [World.store, heq, Word.zero]
    · simp only [World.store, Function.update_of_ne heq]
      exact hblank c (by omega)
  refine h.store (fun _ => rfl) (by simp [Word.zero]) ?_ ?_
  · intro c' q hne hq j hj heq
    -- what stands below was cleared before
    rw [hblank c' (by omega)] at hq
    cases hq
  · split
    · rename_i hmore
      exact ⟨hk, hl, hmore, hnext⟩
    · rename_i hdone
      exact ⟨hk, hl, fun c hc => hnext c (by omega)⟩

end Stores

/-! ## The writer's other steps -/

section Writing

variable {k : Kind} {w : World} {g : Log}

theorem inv_retract (h : Inv k w g) {words : ℕ} {seed : UInt32} (hw : w.writer = .retract words seed) :
    Inv k { w with latest := .zero, writer := .clear words seed 0 } g := by
  have hk : k = .wide := by
    have hwriter := h.writer
    rwa [hw] at hwriter
  constructor
  case width => exact h.width
  case memory => exact h.memory.of_same rfl rfl rfl
  case numbers =>
    exact ⟨h.numbers.formed, h.numbers.current, h.numbers.seeds, h.numbers.fresh, h.numbers.wseq,
      h.numbers.start⟩
  case marked => exact h.marked
  case published => exact h.published
  case latest => exact .inl rfl
  case writer => exact ⟨hk, rfl, by simp only [hk, slots, Kind.stride]; omega, by simp⟩
  case reader =>
    have hreader := h.reader
    have hnone : ∀ r, Word.zero.mark ≠ .seq r := by simp [Word.zero]
    show ReaderAt k _ g w.reader
    cases hr : w.reader with
    | idle => trivial
    | latest dstWords => trivial
    | words dstWords n m =>
      rw [hr] at hreader
      obtain ⟨p, hp, hn, hm, hwhere⟩ := hreader
      refine ⟨p, ⟨hp.published, hp.later, fun r hx => absurd hx (hnone r)⟩, hn, hm, ?_⟩
      exact hwhere.imp_left fun hx => ⟨hx.1, hx.2.of_same rfl⟩
    | copy dstWords n m v tmp =>
      rw [hr] at hreader
      obtain ⟨p, hp, hn, hm, hv, hlen, hreads⟩ := hreader
      exact ⟨p, ⟨hp.published, hp.later, fun r hx => absurd hx (hnone r)⟩, hn, hm, hv, hlen,
        hreads.of_same rfl⟩
    | recheck dstWords n m v tmp =>
      rw [hr] at hreader
      obtain ⟨p, hp, hn, hm, hv, hlen, hreads⟩ := hreader
      exact ⟨p, ⟨hp.published, hp.later, fun r hx => absurd hx (hnone r)⟩, hn, hm, hv, hlen,
        hreads.of_same rfl⟩
  case order =>
    intro q hq
    obtain ⟨p, hp, hrd, hle, -⟩ := h.order q hq
    exact ⟨p, hp, hrd, hle, by simp [Word.zero]⟩

theorem inv_geometry (h : Inv k w g) {words : ℕ} {seed : UInt32}
    (hw : w.writer = .geometry words seed) :
    Inv k { w with wseq := seed, words := words, writer := .idle, start := w.count, seed := seed }
      g := by
  obtain ⟨rfl, hl, hblank⟩ : k = .wide ∧ w.latest = .zero ∧
      ∀ c < slots * k.stride words, (w.cell c).mark = .blank := by
    have hwriter := h.writer
    rwa [hw] at hwriter
  constructor
  case width => rfl
  case memory =>
    refine ⟨h.memory.blank, h.memory.seq, ?_⟩
    intro c hc p hp
    rw [show (w.cell c).mark = .blank from hblank c hc] at hp
    cases hp
  case numbers =>
    refine ⟨h.numbers.formed, ?_, h.numbers.seeds, h.numbers.fresh, by simp, Nat.le_refl _⟩
    intro p hp hstart
    obtain ⟨-, -, hle, hlt, -⟩ := h.numbers.formed p hp
    simp only at hstart
    omega
  case marked => exact h.marked
  case published => exact h.published
  case latest => exact .inl hl
  case writer => trivial
  case reader =>
    have hreader := h.reader
    show ReaderAt .wide _ g w.reader
    cases hr : w.reader with
    | idle => trivial
    | latest dstWords => trivial
    | words dstWords n m =>
      rw [hr] at hreader
      obtain ⟨p, hp, hn, hm, -⟩ := hreader
      -- whatever was published before is of an older geometry
      have hlt := (h.numbers.formed p (h.published p hp.published)).2.2.2.1
      exact ⟨p, hp.of_same rfl rfl rfl, hn, hm, .inr hlt⟩
    | copy dstWords n m v tmp =>
      rw [hr] at hreader
      obtain ⟨p, hp, hn, hm, hv, hlen, hreads⟩ := hreader
      exact ⟨p, hp.of_same rfl rfl rfl, hn, hm, hv, hlen, hreads.of_same rfl⟩
    | recheck dstWords n m v tmp =>
      rw [hr] at hreader
      obtain ⟨p, hp, hn, hm, hv, hlen, hreads⟩ := hreader
      exact ⟨p, hp.of_same rfl rfl rfl, hn, hm, hv, hlen, hreads.of_same rfl⟩
  case order => exact h.order

theorem inv_publish (h : Inv k w g) {p : Publication} (hw : w.writer = .publish p) :
    Inv k { w with latest := ⟨p.num, .seq p⟩, writer := .idle } (g.note (.published p)) := by
  obtain ⟨hp, hmark⟩ : Current w g p ∧ (w.cell (k.slot p.num p.width)).mark = .seq p := by
    have hwriter := h.writer
    rwa [hw] at hwriter
  have hahead : ∀ q ∈ g.published, ∀ r, Mark.seq p = .seq r → Later q r := by
    intro q hq r hr
    obtain rfl := Mark.seq.inj hr
    exact .inr (hp.last q hq)
  constructor
  case width => exact h.width
  case memory => exact h.memory.of_same rfl rfl rfl
  case numbers =>
    exact ⟨h.numbers.formed, h.numbers.current, h.numbers.seeds, h.numbers.fresh, h.numbers.wseq,
      h.numbers.start⟩
  case marked => exact h.marked
  case published =>
    intro q hq
    rcases List.mem_cons.mp hq with rfl | hq
    · exact hp.begun
    · exact h.published q hq
  case latest =>
    refine .inr ⟨p, List.mem_cons_self, rfl, hp.width, ?_⟩
    intro q hq
    rw [show (w.cell (k.slot p.num p.width)).mark = .seq p from hmark] at hq
    exact .inl (Mark.seq.inj hq).symm
  case writer => trivial
  case reader =>
    have hreader := h.reader
    show ReaderAt k _ _ w.reader
    cases hr : w.reader with
    | idle => trivial
    | latest dstWords => trivial
    | words dstWords n m =>
      rw [hr] at hreader
      obtain ⟨q, hq, hn, hm, hwhere⟩ := hreader
      refine ⟨q, ⟨List.mem_cons_of_mem p hq.published, hq.later, hahead q hq.published⟩, hn, hm, ?_⟩
      exact hwhere.imp_left fun hx => ⟨hx.1, hx.2.of_same rfl⟩
    | copy dstWords n m v tmp =>
      rw [hr] at hreader
      obtain ⟨q, hq, hn, hm, hv, hlen, hreads⟩ := hreader
      exact ⟨q, ⟨List.mem_cons_of_mem p hq.published, hq.later, hahead q hq.published⟩, hn, hm, hv,
        hlen, hreads.of_same rfl⟩
    | recheck dstWords n m v tmp =>
      rw [hr] at hreader
      obtain ⟨q, hq, hn, hm, hv, hlen, hreads⟩ := hreader
      exact ⟨q, ⟨List.mem_cons_of_mem p hq.published, hq.later, hahead q hq.published⟩, hn, hm, hv,
        hlen, hreads.of_same rfl⟩
  case order =>
    intro q hq
    obtain ⟨l, hl, hrd, hle, -⟩ := h.order q hq
    exact ⟨l, List.mem_cons_of_mem p hl, hrd, hle, hahead l hl⟩

/-- A number is taken that no earlier initialisation has used. -/
theorem inv_begin (h : Inv k w g) (src : List UInt32)
    (hseeds : ∀ q ∈ g.begun, q.start ≠ w.start → q.num ≠ nextSeq w.wseq) :
    Inv k (w.beginWrite src).1 (g.note (w.beginWrite src).2) := by
  simp only [World.beginWrite, Log.note]
  generalize hp : Publication.mk w.count w.start w.seed (nextSeq w.wseq) w.words
    ((List.range w.words).map fun i => src.getD i 0) = p
  have hid : p.id = w.count := by rw [← hp]
  have hstart : p.start = w.start := by rw [← hp]
  have hseed : p.seed = w.seed := by rw [← hp]
  have hnum : p.num = nextSeq w.wseq := by rw [← hp]
  have hwidth : p.width = w.words := by rw [← hp]
  have hlen : p.value.length = p.width := by
    rw [← hp]
    simp
  have hle := h.numbers.start
  have hseq : nextSeq w.wseq = nextSeq^[w.count + 1 - w.start] w.seed := by
    rw [Nat.succ_sub hle, Function.iterate_succ_apply', ← h.numbers.wseq]
  constructor
  case width => exact h.width
  case memory => exact h.memory.of_same rfl rfl rfl
  case numbers =>
    constructor
    case formed =>
      intro q hq
      rcases List.mem_cons.mp hq with rfl | hq
      · refine ⟨hnum ▸ nextSeq_ne_zero _, hlen, by omega, by simp [hid], ?_⟩
        rw [hnum, hid, hstart, hseed, hseq]
      · obtain ⟨h₁, h₂, h₃, h₄, h₅⟩ := h.numbers.formed q hq
        exact ⟨h₁, h₂, h₃, Nat.lt_succ_of_lt h₄, h₅⟩
    case current =>
      intro q hq hs
      rcases List.mem_cons.mp hq with rfl | hq
      · exact hseed
      · exact h.numbers.current q hq hs
    case seeds =>
      intro q hq r hr hs
      rcases List.mem_cons.mp hq with rfl | hq' <;> rcases List.mem_cons.mp hr with rfl | hr'
      · rfl
      · exact hseed.trans (h.numbers.current r hr' (hs.symm.trans hstart)).symm
      · exact (h.numbers.current q hq' (hs.trans hstart)).trans hseed.symm
      · exact h.numbers.seeds q hq' r hr' hs
    case fresh =>
      intro q hq r hr hs
      rcases List.mem_cons.mp hq with rfl | hq' <;> rcases List.mem_cons.mp hr with rfl | hr'
      · exact absurd rfl hs
      · exact hnum ▸ (hseeds r hr' fun hx => hs (hstart.trans hx.symm)).symm
      · exact hnum ▸ hseeds q hq' fun hx => hs (hx.trans hstart.symm)
      · exact h.numbers.fresh q hq' r hr' hs
    case wseq => exact hseq
    case start => exact Nat.le_succ_of_le hle
  case marked => exact fun c q hq => List.mem_cons_of_mem p (h.marked c q hq)
  case published => exact fun q hq => List.mem_cons_of_mem p (h.published q hq)
  case latest => exact h.latest.of_same rfl rfl rfl rfl
  case writer =>
    refine ⟨List.mem_cons_self, by simp [hid], hwidth, by simp [hid, hle], ?_⟩
    intro q hq
    rw [hid]
    exact (h.numbers.formed q (h.published q hq)).2.2.2.1
  case reader => exact h.reader.of_same rfl rfl rfl rfl rfl rfl
  case order => exact h.order

end Writing

/-! ## The reader's steps -/

section Reading

variable {k : Kind} {w : World} {g : Log}

theorem Holds.copying {p : Publication} (hp : Holds w g p) {v : ℕ}
    (hreads : Reads k w p v []) : ReaderAt k w g (.copying v p.num (.seq p) v []) := by
  simp only [Reader.copying]
  split
  · rename_i hpos
    exact ⟨p, hp, rfl, rfl, rfl, hpos, hreads⟩
  · rename_i hnone
    exact ⟨p, hp, rfl, rfl, rfl, by simp at hnone ⊢; omega, hreads⟩

theorem reads_nil {p : Publication} {v : ℕ} (hw : p.width = v)
    (hnew : Newest w (k.slot p.num p.width) p) : Reads k w p v [] where
  newest := hw ▸ hnew
  whole _ := ⟨hw, rfl⟩

theorem inv_latest (h : Inv k w g) {dstWords : ℕ} (hr : w.reader = .latest dstWords) :
    Inv k (w.stepReader k).1 (g.note (w.stepReader k).2) ∧
      ((w.stepReader k).2 = .refused → (w.stepReader k).1.dst = w.dst ∧
        (w.stepReader k).1.rdSeq = w.rdSeq) ∧
      ((w.stepReader k).2 = .refused ∨ (w.stepReader k).2 = .quiet) := by
  simp only [World.stepReader, hr]
  split
  · exact ⟨h.setReader trivial, fun _ => ⟨rfl, rfl⟩, .inl rfl⟩
  rename_i hnew
  simp only [not_or] at hnew
  obtain ⟨p, hpub, hl, hwidth, hnewest⟩ : ∃ p ∈ g.published, w.latest = ⟨p.num, .seq p⟩ ∧
      p.width = w.words ∧ Newest w (k.slot p.num p.width) p := by
    refine h.latest.resolve_left fun hzero => ?_
    rw [hzero] at hnew
    exact hnew.1 rfl
  have hp : Holds w g p := by
    refine ⟨hpub, ?_, ?_⟩
    · intro q hq
      obtain ⟨l, -, hrd, hle, hlater⟩ := h.order q hq
      rcases hlater p (by rw [hl]) with rfl | hlt
      · -- the last value delivered is not delivered again
        rw [hl, hrd] at hnew
        exact absurd rfl hnew.2
      · omega
    · intro r hx
      rw [hl] at hx
      exact .inl (Mark.seq.inj hx).symm
  cases k with
  | pair =>
    refine ⟨h.setReader ?_, by simp, .inr rfl⟩
    rw [hl]
    exact hp.copying (reads_nil (hwidth.trans h.width) hnewest)
  | wide =>
    refine ⟨h.setReader ?_, by simp, .inr rfl⟩
    rw [hl]
    exact ⟨p, hp, rfl, rfl, .inl ⟨hwidth, hnewest⟩⟩

theorem inv_words (h : Inv k w g) {dstWords : ℕ} {n : UInt32} {m : Mark}
    (hr : w.reader = .words dstWords n m) :
    Inv k (w.stepReader k).1 (g.note (w.stepReader k).2) ∧
      ((w.stepReader k).2 = .refused → (w.stepReader k).1.dst = w.dst ∧
        (w.stepReader k).1.rdSeq = w.rdSeq) ∧
      ((w.stepReader k).2 = .refused ∨ (w.stepReader k).2 = .quiet) := by
  simp only [World.stepReader, hr]
  split
  · exact ⟨h.setReader trivial, fun _ => ⟨rfl, rfl⟩, .inl rfl⟩
  rename_i hwords
  simp only [not_or, Decidable.not_not] at hwords
  obtain ⟨p, hp, rfl, rfl, hwhere⟩ : ReaderAt k w g (.words dstWords n m) := by
    have hreader := h.reader
    rwa [hr] at hreader
  refine ⟨h.setReader ?_, by simp, .inr rfl⟩
  rw [← hwords.1]
  refine hp.copying ?_
  rcases hwhere with ⟨hwidth, hnewest⟩ | hold
  · exact reads_nil hwidth hnewest
  · -- of an older geometry: its number has been cleared here
    have hplace : k.slot p.num w.words < slots * k.stride w.words := by
      have hfits := h.fits
      exact slot_lt k p.num (j := 0) (by omega)
    constructor
    · intro q hq
      have hstart := (h.memory.extent _ hplace q hq).2
      exact .inr (by omega)
    · intro hq
      have hstart := (h.memory.extent _ hplace p hq).2
      omega

theorem inv_copy (h : Inv k w g) {dstWords : ℕ} {n : UInt32} {m : Mark} {v : ℕ} {tmp : List UInt32}
    (hr : w.reader = .copy dstWords n m v tmp) : Inv k (w.stepReader k).1 g := by
  obtain ⟨p, hp, rfl, rfl, rfl, hlen, hreads⟩ : ReaderAt k w g (.copy dstWords n m v tmp) := by
    have hreader := h.reader
    rwa [hr] at hreader
  simp only [World.stepReader, hr]
  refine h.setReader ?_
  have hnext : Reads k w p v (tmp ++ [(w.cell (k.slot p.num v + 1 + tmp.length)).val]) := by
    refine ⟨hreads.newest, ?_⟩
    intro hmark
    obtain ⟨hwidth, htmp⟩ := hreads.whole hmark
    have hval := (h.memory.seq _ p hmark).2.2 tmp.length (by omega)
    have hvalue := (h.numbers.formed p (h.published p hp.published)).2.1
    have hlt : tmp.length < p.value.length := by omega
    refine ⟨hwidth, ?_⟩
    rw [hval, List.length_append, List.length_singleton, List.take_add_one, ← htmp,
      List.getD_eq_getElem?_getD, List.getElem?_eq_getElem hlt]
    rfl
  simp only [Reader.copying]
  split
  · rename_i hmore
    exact ⟨p, hp, rfl, rfl, rfl, hmore, hnext⟩
  · rename_i hdone
    refine ⟨p, hp, rfl, rfl, rfl, ?_, hnext⟩
    simp only [List.length_append, List.length_singleton] at hdone ⊢
    omega

/-- No later publication has the number of one that is being read. -/
theorem Numbers.distinct (h : Numbers w g) {p q : Publication} (hp : p ∈ g.begun) (hq : q ∈ g.begun)
    (hlt : p.id < q.id) (hlap : w.count < p.id + 2 ^ 32) : p.num ≠ q.num := by
  by_cases hstart : p.start = q.start
  · obtain ⟨-, -, hps, -, hpn⟩ := h.formed p hp
    obtain ⟨-, -, hqs, hqc, hqn⟩ := h.formed q hq
    rw [hpn, hqn, ← h.seeds p hp q hq hstart]
    exact iterate_ne _ (by omega) (by omega) (by omega)
  · exact h.fresh p hp q hq hstart

theorem inv_recheck (h : Inv k w g) {dstWords : ℕ} {n : UInt32} {m : Mark} {v : ℕ}
    {tmp : List UInt32} (hr : w.reader = .recheck dstWords n m v tmp)
    (hc : Careful k g (Trace.entry (World.step k) w .reader)) :
    Inv k (w.stepReader k).1 (g.note (w.stepReader k).2) ∧
      Whole g (Trace.entry (World.step k) w .reader) := by
  obtain ⟨p, hp, rfl, rfl, rfl, hlen, hreads⟩ : ReaderAt k w g (.recheck dstWords n m v tmp) := by
    have hreader := h.reader
    rwa [hr] at hreader
  by_cases hstands : (w.cell (k.slot p.num v)).val = p.num
  · have hstep : w.stepReader k = ({ w with reader := .idle, dst := tmp, rdSeq := p.num },
        .delivered v (.seq p) tmp) := by
      simp [World.stepReader, hr, hstands]
    have hbegun := h.published p hp.published
    have hformed := h.numbers.formed p hbegun
    -- the number is that of the publication: nothing else can have put it there
    have hmark : (w.cell (k.slot p.num v)).mark = .seq p := by
      cases hm : (w.cell (k.slot p.num v)).mark with
      | blank => exact absurd (hstands.symm.trans (h.memory.blank _ hm)) hformed.1
      | data => exact absurd hstands (hc.masked v p.num (.seq p) v tmp rfl hr hm)
      | seq q =>
        rcases hreads.newest q hm with rfl | hlt
        · rfl
        · have hne := h.numbers.distinct hbegun (h.marked _ q hm) hlt
            (hc.lap v p.num p v tmp rfl hr)
          exact absurd (hstands.symm.trans (h.memory.seq _ q hm).2.1) hne
    obtain ⟨hwidth, htmp⟩ := hreads.whole hmark
    have hvalue : tmp = p.value := by
      rw [htmp, List.take_of_length_le (by omega)]
    constructor
    · rw [hstep]
      constructor
      case width => exact h.width
      case memory => exact h.memory.of_same rfl rfl rfl
      case numbers =>
        exact ⟨h.numbers.formed, h.numbers.current, h.numbers.seeds, h.numbers.fresh,
          h.numbers.wseq, h.numbers.start⟩
      case marked => exact h.marked
      case published => exact h.published
      case latest => exact h.latest.of_same rfl rfl rfl rfl
      case writer => exact h.writer.of_same rfl rfl rfl rfl rfl rfl rfl
      case reader => trivial
      case order =>
        intro q hq
        refine ⟨p, hp.published, rfl, ?_, hp.ahead⟩
        rcases List.mem_cons.mp hq with rfl | hq
        · exact Nat.le_refl _
        · exact Nat.le_of_lt (hp.later q hq)
    · constructor
      case delivered =>
        intro d m' value hl
        simp only [Trace.entry_label, World.step, hstep, Label.delivered.injEq] at hl
        obtain ⟨rfl, rfl, rfl⟩ := hl
        exact ⟨p, hp.published, rfl, hvalue, hlen, by simp [World.step, hstep], hp.later⟩
      case refused => simp [World.step, hstep]
      case published => simp [World.step, hstep]
  · have hstep : w.stepReader k = ({ w with reader := .idle }, .refused) := by
      simp [World.stepReader, hr, hstands]
    constructor
    · rw [hstep]
      exact h.setReader trivial
    · constructor <;> simp [World.step, hstep]

end Reading

/-! ## Runs -/

section Runs

variable {k : Kind} {w : World} {g : Log}

theorem whole_of_quiet {x : Step} (hl : x.label = .quiet) : Whole g x := by
  constructor <;> simp [hl]

theorem whole_of_refused {x : Step} (hl : x.label = .refused)
    (hsame : x.after.dst = x.before.dst ∧ x.after.rdSeq = x.before.rdSeq) : Whole g x := by
  constructor
  case delivered => simp [hl]
  case refused => exact fun _ => hsame
  case published => simp [hl]

theorem good_reader (h : Inv k w g) (hc : Careful k g (Trace.entry (World.step k) w .reader)) :
    Inv k (w.stepReader k).1 (g.note (w.stepReader k).2) ∧
      Whole g (Trace.entry (World.step k) w .reader) := by
  cases hr : w.reader with
  | idle =>
    have hstep : w.stepReader k = (w, .quiet) := by
      simp [World.stepReader, hr]
    exact ⟨by rwa [hstep], whole_of_quiet (by simp [World.step, hstep])⟩
  | latest dstWords =>
    obtain ⟨hinv, hsame, hl | hl⟩ := inv_latest h hr
    · exact ⟨hinv, whole_of_refused hl (hsame hl)⟩
    · exact ⟨hinv, whole_of_quiet hl⟩
  | words dstWords n m =>
    obtain ⟨hinv, hsame, hl | hl⟩ := inv_words h hr
    · exact ⟨hinv, whole_of_refused hl (hsame hl)⟩
    · exact ⟨hinv, whole_of_quiet hl⟩
  | copy dstWords n m v tmp =>
    have hl : (w.stepReader k).2 = .quiet := by
      simp [World.stepReader, hr]
    exact ⟨by rw [hl]; exact inv_copy h hr, whole_of_quiet hl⟩
  | recheck dstWords n m v tmp => exact inv_recheck h hr hc

theorem good_store (hl : (w.stepWriter k).2 = .quiet) (h : Inv k (w.stepWriter k).1 g) :
    Inv k (w.stepWriter k).1 (g.note (w.stepWriter k).2) ∧
      Whole g (Trace.entry (World.step k) w .writer) := by
  refine ⟨?_, whole_of_quiet hl⟩
  rw [hl]
  exact h

theorem good_writer (h : Inv k w g) :
    Inv k (w.stepWriter k).1 (g.note (w.stepWriter k).2) ∧
      Whole g (Trace.entry (World.step k) w .writer) := by
  cases hw : w.writer with
  | idle =>
    refine good_store (by simp [World.stepWriter, hw]) ?_
    simpa only [World.stepWriter, hw] using h
  | retract words seed =>
    refine good_store (by simp [World.stepWriter, hw]) ?_
    simpa only [World.stepWriter, hw] using inv_retract h hw
  | clear words seed i =>
    refine good_store (by simp [World.stepWriter, hw]) ?_
    simpa only [World.stepWriter, hw] using inv_clear h hw
  | geometry words seed =>
    refine good_store (by simp [World.stepWriter, hw]) ?_
    simpa only [World.stepWriter, hw] using inv_geometry h hw
  | invalidate p =>
    refine good_store (by simp [World.stepWriter, hw]) ?_
    simpa only [World.stepWriter, hw] using inv_invalidate h hw
  | payload p i =>
    refine good_store (by simp [World.stepWriter, hw]) ?_
    simpa only [World.stepWriter, hw] using inv_payload h hw
  | validate p =>
    refine good_store (by simp [World.stepWriter, hw]) ?_
    simpa only [World.stepWriter, hw] using inv_validate h hw
  | publish p =>
    have hl : (w.stepWriter k).2 = .published p := by
      simp [World.stepWriter, hw]
    have hp : Current w g p := by
      have hwriter := h.writer
      rw [hw] at hwriter
      exact hwriter.1
    constructor
    · rw [hl]
      simp only [World.stepWriter, hw]
      exact inv_publish h hw
    · constructor
      case delivered => simp [World.step, hl]
      case refused => simp [World.step, hl]
      case published =>
        intro q hq
        simp only [Trace.entry_label, World.step, hl, Label.published.injEq] at hq
        exact hq ▸ hp.last

theorem good_step (h : Inv k w g) (e : Event)
    (hc : Careful k g (Trace.entry (World.step k) w e)) :
    Inv k (w.step k e).1 (g.note (w.step k e).2) ∧
      Whole g (Trace.entry (World.step k) w e) := by
  have hsame : w.step k e = (w, .quiet) →
      Inv k (w.step k e).1 (g.note (w.step k e).2) ∧
        Whole g (Trace.entry (World.step k) w e) := by
    intro hstep
    exact ⟨by rwa [hstep], whole_of_quiet (by simp [hstep])⟩
  cases e with
  | reader => exact good_reader h hc
  | writer => exact good_writer h
  | init words seed =>
    by_cases hstart : k = .wide ∧ w.writer = .idle
    · have hstep : w.step k (.init words seed) =
          ({ w with writer := .retract words seed }, .quiet) := by
        simp [World.step, hstart.1, hstart.2]
      refine ⟨?_, whole_of_quiet (by simp [hstep])⟩
      rw [hstep]
      exact h.setWriter hstart.1
    · refine hsame ?_
      simp only [World.step]
      split
      · rename_i hw
        exact absurd ⟨rfl, hw⟩ hstart
      · rfl
  | write src =>
    by_cases hidle : w.writer = .idle
    · have hstep : w.step k (.write src) = w.beginWrite src := by
        simp [World.step, hidle]
      refine ⟨?_, ?_⟩
      · rw [hstep]
        refine inv_begin h src ?_
        intro q hq hstart
        refine hc.seeds (Publication.mk w.count w.start w.seed (nextSeq w.wseq) w.words
          ((List.range w.words).map fun i => src.getD i 0)) ?_ q hq hstart
        simp [hstep, World.beginWrite]
      · constructor <;> simp [hstep, World.beginWrite]
    · refine hsame ?_
      cases hw : w.writer <;> simp_all [World.step]
  | read dstWords =>
    by_cases hidle : w.reader = .idle
    · have hstep : w.step k (.read dstWords) =
          ({ w with reader := .latest dstWords }, .quiet) := by
        simp [World.step, hidle]
      refine ⟨?_, whole_of_quiet (by simp [hstep])⟩
      rw [hstep]
      exact h.setReader trivial
    · refine hsame ?_
      cases hr : w.reader <;> simp_all [World.step]

theorem inv_init (k : Kind) (mem : ℕ → UInt32) (words : ℕ) (seed : UInt32) :
    Inv k (World.init k mem words seed) {} := by
  have hmark : ∀ c p, ((World.init k mem words seed).cell c).mark ≠ .seq p := by
    intro c p
    simp only [World.init]
    split <;> simp [Word.zero]
  constructor
  case width => cases k <;> rfl
  case memory =>
    refine ⟨?_, fun c p hc => absurd hc (hmark c p), fun c _ p hc => absurd hc (hmark c p)⟩
    intro c
    simp only [World.init]
    split <;> simp [Word.zero]
  case numbers => constructor <;> simp [World.init]
  case marked => exact fun c p hc => absurd hc (hmark c p)
  case published => simp
  case latest => exact .inl rfl
  case writer => trivial
  case reader => trivial
  case order => simp

end Runs

/-- On every interleaving of the two threads in which the words under the reader stay apart from
the numbers of other publishes, a read hands over one whole value, and each later than the last. -/
theorem never_torn (k : Kind) (mem : ℕ → UInt32) (words : ℕ) (seed : UInt32) (es : List Event)
    (hc : Trace.Along (fun hist x => Careful k (log hist) x)
      (Trace.history (World.step k) (World.init k mem words seed) es)) :
    Trace.Along (fun hist x => Whole (log hist) x)
      (Trace.history (World.step k) (World.init k mem words seed) es) := by
  refine (Trace.run_along (I := fun w hist => Inv k w (log hist)) (inv_init k mem words seed) ?_ es
    hc).2
  intro es e h hx
  rw [log_snoc]
  exact good_step h e hx

/-! ### A bench -/

/-- The bounds of a step, computed. -/
def careful (k : Kind) (g : Log) (x : Step) : Bool :=
  (match x.event, x.before.reader with
    | .reader, .recheck _ n m v _ =>
      (match m with
        | .seq p => decide (x.before.count < p.id + 2 ^ 32)
        | _ => true) &&
        (decide ((x.before.cell (k.slot n v)).mark ≠ .data) ||
          decide ((x.before.cell (k.slot n v)).val ≠ n))
    | _, _ => true) &&
  match x.label with
  | .begun p => g.begun.all fun q => q.start == p.start || q.num != p.num
  | _ => true

theorem Careful.of_check {k : Kind} {g : Log} {x : Step} (h : careful k g x = true) :
    Careful k g x := by
  simp only [careful, Bool.and_eq_true] at h
  constructor
  case lap =>
    intro dstWords n p v tmp he hr
    simpa [he, hr] using (by simpa [he, hr] using h.1 : _ ∧ _).1
  case seeds =>
    intro p hl q hq hstart
    have hall := h.2
    simp only [hl, List.all_eq_true, Bool.or_eq_true, beq_iff_eq, bne_iff_ne] at hall
    exact (hall q hq).resolve_left hstart
  case masked =>
    intro dstWords n m v tmp he hr hmark
    have hword := h.1
    simp only [he, hr, Bool.and_eq_true, Bool.or_eq_true, decide_eq_true_eq] at hword
    exact hword.2.resolve_left (not_not.mpr hmark)

/-- One value of two words is published, and read. -/
def benchRead : List Event :=
  .write [10, 20] :: List.replicate 5 .writer ++ .read 2 :: List.replicate 5 .reader

theorem never_torn_read :
    Trace.Along (fun hist x => Whole (log hist) x)
        (Trace.history (World.step .wide) (World.init .wide (fun _ => 0) 2 0) benchRead) ∧
      ((Trace.history (World.step .wide) (World.init .wide (fun _ => 0) 2 0) benchRead).map
          (·.label)).getLast? = some (.delivered 2 (.seq ⟨0, 0, 0, 1, 2, [10, 20]⟩) [10, 20]) := by
  constructor
  · refine never_torn .wide (fun _ => 0) 2 0 benchRead (Trace.along_of_get ?_)
    intro i
    apply Careful.of_check
    revert i
    decide
  · decide

/-- The reader has copied one word of two; the channel is initialised again with values of three, and
the third word of the next is the number of the publish that the reader is at. -/
def benchMasked : List Event :=
  .write [10, 20] :: List.replicate 5 .writer ++ .read 2 :: List.replicate 3 .reader ++
    .init 3 3 :: List.replicate 18 .writer ++ .write [7, 8, 1] :: List.replicate 4 .writer ++
    [.reader]

theorem masked_read_torn :
    ¬Trace.Along (fun hist x => Whole (log hist) x)
        (Trace.history (World.step .wide) (World.init .wide (fun _ => 0) 2 0)
          (benchMasked ++ [.reader])) ∧
      ((Trace.history (World.step .wide) (World.init .wide (fun _ => 0) 2 0)
          (benchMasked ++ [.reader])).map (·.label)).filter (· ≠ .quiet) =
        [.begun ⟨0, 0, 0, 1, 2, [10, 20]⟩, .published ⟨0, 0, 0, 1, 2, [10, 20]⟩,
          .begun ⟨1, 1, 3, 4, 3, [7, 8, 1]⟩,
          .delivered 2 (.seq ⟨0, 0, 0, 1, 2, [10, 20]⟩) [10, 0]] := by
  constructor
  · intro h
    obtain ⟨p, hp, -, hvalue, -⟩ :=
      (h _ _ [] (Trace.history_snoc benchMasked .reader)).delivered 2
        (.seq ⟨0, 0, 0, 1, 2, [10, 20]⟩) [10, 0] (by decide)
    have hpublished : (log (Trace.history (World.step .wide) (World.init .wide (fun _ => 0) 2 0)
        benchMasked)).published = [⟨0, 0, 0, 1, 2, [10, 20]⟩] := by decide
    rw [hpublished, List.mem_singleton] at hp
    rw [hp] at hvalue
    cases hvalue
  · decide

end BloblyEmb.Xioc
