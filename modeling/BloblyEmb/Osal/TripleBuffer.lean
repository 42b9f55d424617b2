import BloblyEmb.Lib.Trace
import Mathlib.Data.List.GetD
import Mathlib.Logic.Function.Basic
import Mathlib.Order.Basic
import Mathlib.Algebra.Order.Group.Nat

/-!
# The triple buffer

Values between a writer and a reader (`osal`): three buffers, of which the writer fills one, the
reader copies one, and the third changes hands with one word. Every access of the two sides is a
step of its own, in any order.
-/
namespace BloblyEmb.Osal

/-- The largest value. -/
def iocMax : ℕ := 64

/-- The shared word: an index, and that the buffer was published since the last acquire. -/
def dbDirty : UInt32 := 4
def dbIdx : UInt32 := 3

structure DbSlot where
  shared : UInt32
  wb : UInt32
  rf : UInt32
  len : UInt32 → UInt8
  buf : UInt32 → ℕ → UInt8

/-- Where the writer is: what it still has to do. -/
inductive Writer where
  | idle
  | length (wb : UInt32) (src : List UInt8)
  | copy (wb : UInt32) (src : List UInt8) (k : ℕ)
  | keep (old : UInt32)

/-- And the reader, in `blob_ioc_acq_fresh` when `fresh`, else in `blob_ioc_acq`. -/
inductive Reader where
  | idle
  | load (fresh : Bool) (maxLen : UInt8)
  | flip (fresh : Bool) (maxLen : UInt8)
  | keep (fresh : Bool) (maxLen : UInt8) (old : UInt32)
  | size (fresh : Bool) (maxLen : UInt8) (flipped : Bool)
  | copy (fresh : Bool) (maxLen : UInt8) (flipped : Bool) (rf : UInt32) (n : UInt8)
    (dst : List UInt8)

structure World where
  slot : DbSlot
  writer : Writer
  reader : Reader

/-- The slot after `init_db_indices`, with nothing published. -/
def World.start : World where
  slot := { shared := 1, wb := 0, rf := 2, len := fun _ => 0, buf := fun _ _ => 0 }
  writer := .idle
  reader := .idle

inductive Event where
  /-- A call of `blob_ioc_pub`, and one access of the call under way. -/
  | publish (src : List UInt8)
  | writer
  | acquire (fresh : Bool) (maxLen : UInt8)
  | reader
deriving DecidableEq

/-- What a step did that the other steps of its side do not. -/
inductive Note where
  | quiet
  | called
  | published (v : List UInt8)
  | consumed
  | delivered (fresh : Bool) (maxLen : UInt8) (ret : Bool) (dst : List UInt8)
deriving DecidableEq

namespace World

def stepWriter (w : World) : World × Note :=
  match w.writer with
  | .idle => (w, .quiet)
  | .length wb src =>
    let s := { w.slot with len := Function.update w.slot.len wb (UInt8.ofNat src.length) }
    ({ w with slot := s, writer := .copy wb src 0 }, .quiet)
  | .copy wb src k =>
    if k < src.length then
      let cell := Function.update (w.slot.buf wb) k (src.getD k 0)
      let s := { w.slot with buf := Function.update w.slot.buf wb cell }
      ({ w with slot := s, writer := .copy wb src (k + 1) }, .quiet)
    else
      -- the exchange publishes the buffer and takes the one that was shared
      let s := { w.slot with shared := wb ||| dbDirty }
      ({ w with slot := s, writer := .keep w.slot.shared }, .published src)
  | .keep old =>
    ({ w with slot := { w.slot with wb := old &&& dbIdx }, writer := .idle }, .quiet)

def stepReader (w : World) : World × Note :=
  match w.reader with
  | .idle => (w, .quiet)
  | .load fresh maxLen =>
    if w.slot.shared &&& dbDirty ≠ 0 then ({ w with reader := .flip fresh maxLen }, .quiet)
    else ({ w with reader := .size fresh maxLen false }, .quiet)
  | .flip fresh maxLen =>
    let s := { w.slot with shared := w.slot.rf }
    ({ w with slot := s, reader := .keep fresh maxLen w.slot.shared }, .consumed)
  | .keep fresh maxLen old =>
    let s := { w.slot with rf := old &&& dbIdx }
    ({ w with slot := s, reader := .size fresh maxLen true }, .quiet)
  | .size fresh maxLen flipped =>
    let len := w.slot.len w.slot.rf
    let n := if len > maxLen then maxLen else len
    ({ w with reader := .copy fresh maxLen flipped w.slot.rf n [] }, .quiet)
  | .copy fresh maxLen flipped rf n dst =>
    if dst.length < n.toNat then
      let dst' := dst ++ [w.slot.buf rf dst.length]
      ({ w with reader := .copy fresh maxLen flipped rf n dst' }, .quiet)
    else
      let ret := (!fresh || flipped) && decide (n > 0)
      ({ w with reader := .idle }, .delivered fresh maxLen ret dst)

/-- One access, or a call of a side that is not in one. -/
def step (w : World) : Event → World × Note
  | .publish src =>
    match w.writer with
    | .idle =>
      if iocMax < src.length then (w, .quiet)
      else ({ w with writer := .length w.slot.wb src }, .quiet)
    | _ => (w, .quiet)
  | .writer => w.stepWriter
  | .acquire fresh maxLen =>
    match w.reader with
    | .idle => ({ w with reader := .load fresh maxLen }, .called)
    | _ => (w, .quiet)
  | .reader => w.stepReader

/-! ## Who holds which buffer -/

/-- The writer's buffer; between its two stores, the one that it took. -/
def writerBuf (w : World) : UInt32 :=
  match w.writer with
  | .keep old => old &&& dbIdx
  | _ => w.slot.wb

def sharedBuf (w : World) : UInt32 := w.slot.shared &&& dbIdx

def readerBuf (w : World) : UInt32 :=
  match w.reader with
  | .keep _ _ old => old &&& dbIdx
  | _ => w.slot.rf

/-- The buffer that the writer is writing. -/
def writing (w : World) : Option UInt32 :=
  match w.writer with
  | .length wb _ | .copy wb _ _ => some wb
  | _ => none

/-- The accesses that a call of the reader still makes, at most. -/
def left (w : World) : ℕ :=
  match w.reader with
  | .idle => 0
  | .load _ maxLen => maxLen.toNat + 5
  | .flip _ maxLen => maxLen.toNat + 4
  | .keep _ maxLen _ => maxLen.toNat + 3
  | .size _ maxLen _ => maxLen.toNat + 2
  | .copy _ _ _ _ n dst => n.toNat - dst.length + 1

/-- The buffer that the reader is copying, its length first. -/
def copying (w : World) : Option UInt32 :=
  match w.reader with
  | .size _ _ _ => some w.slot.rf
  | .copy _ _ _ rf _ _ => some rf
  | _ => none

end World

/-! ## What an observer knows -/

structure Seen where
  published : List (List UInt8) := []
  /-- The publications up to the one the reader consumed last. -/
  consumed : ℕ := 0
  /-- The publications when the reader's call began. -/
  begun : ℕ := 0
  /-- The call has consumed one. -/
  flipped : Bool := false

def Seen.note (o : Seen) : Note → Seen
  | .called => { o with begun := o.published.length, flipped := false }
  | .published v => { o with published := o.published ++ [v] }
  | .consumed => { o with consumed := o.published.length, flipped := true }
  | _ => o

def seen (hist : List (Trace.Entry World Event Note)) : Seen :=
  hist.foldl (fun o x => o.note x.label) {}

/-- The `n`-th publication; nothing before the first. -/
def Seen.value (o : Seen) (n : ℕ) : List UInt8 := if n = 0 then [] else o.published.getD (n - 1) []

@[simp] theorem seen_snoc (hist : List (Trace.Entry World Event Note))
    (x : Trace.Entry World Event Note) : seen (hist ++ [x]) = (seen hist).note x.label := by
  simp [seen, List.foldl_append]

/-- What holds of each step of a run. -/
structure Handed (hist : List (Trace.Entry World Event Note))
    (x : Trace.Entry World Event Note) : Prop where
  permutation : [x.after.writerBuf, x.after.sharedBuf, x.after.readerBuf].Perm [0, 1, 2]
  apart : ∀ i ∈ x.after.copying, ∀ j ∈ x.after.writing, i ≠ j
  /-- Each publication is consumed at most once, and after those before it. -/
  consume : x.label = .consumed → (seen hist).consumed < (seen hist).published.length
  order : (seen hist).consumed ≤ (seen (hist ++ [x])).consumed
  /-- A call delivers the publication consumed last, no older than its start. -/
  deliver : ∀ fresh maxLen ret dst, x.label = .delivered fresh maxLen ret dst →
    dst = ((seen hist).value (seen hist).consumed).take maxLen.toNat ∧
      (seen hist).begun ≤ (seen hist).consumed ∧
      (seen hist).consumed ≤ (seen hist).published.length
  /-- And reports it: as fresh when the call consumed it, and it is not empty. -/
  report : ∀ fresh maxLen ret dst, x.label = .delivered fresh maxLen ret dst →
    (ret = true ↔ dst ≠ [] ∧ (fresh = true → (seen hist).flipped = true))
  /-- With nothing published since its start, that is the last publication. -/
  last : ∀ fresh maxLen ret dst, x.label = .delivered fresh maxLen ret dst →
    (seen hist).begun = (seen hist).published.length →
    dst = ((seen hist).value (seen hist).published.length).take maxLen.toNat
  /-- A call ends after a bounded number of its own accesses, whatever the writer does. -/
  waitFree : x.before.left ≠ 0 →
    if x.event = .reader then x.after.left < x.before.left else x.after.left = x.before.left

/-! ## The invariant -/

/-- A buffer holds a value. -/
structure Holds (s : DbSlot) (i : UInt32) (v : List UInt8) : Prop where
  short : v.length ≤ iocMax
  len : s.len i = UInt8.ofNat v.length
  bytes : ∀ k < v.length, s.buf i k = v.getD k 0

theorem Holds.toNat_len {s : DbSlot} {i : UInt32} {v : List UInt8} (h : Holds s i v) :
    (s.len i).toNat = v.length := by
  have hshort := h.short
  have hmax : iocMax = 64 := rfl
  rw [h.len, UInt8.toNat_ofNat']
  omega

/-- Three different buffers. -/
structure Owned (a b c : UInt32) : Prop where
  first : a < 3
  second : b < 3
  third : c < 3
  ab : a ≠ b
  ac : a ≠ c
  bc : b ≠ c

theorem Owned.cases {a : UInt32} (h : a < 3) : a = 0 ∨ a = 1 ∨ a = 2 := by
  have hnat : a.toNat < 3 := h
  rcases Nat.lt_or_ge a.toNat 1 with h0 | h0
  · exact .inl (UInt32.toNat_inj.mp (by simpa using Nat.lt_one_iff.mp h0))
  rcases Nat.lt_or_ge a.toNat 2 with h1 | h1
  · have heq : a.toNat = 1 := by omega
    exact .inr (.inl (UInt32.toNat_inj.mp heq))
  · have heq : a.toNat = 2 := by omega
    exact .inr (.inr (UInt32.toNat_inj.mp heq))

theorem Owned.perm {a b c : UInt32} (h : Owned a b c) : [a, b, c].Perm [0, 1, 2] := by
  obtain ⟨ha, hb, hc, hab, hac, hbc⟩ := h
  rcases Owned.cases ha with rfl | rfl | rfl <;> rcases Owned.cases hb with rfl | rfl | rfl <;>
    rcases Owned.cases hc with rfl | rfl | rfl <;>
    first
      | exact absurd rfl hab
      | exact absurd rfl hac
      | exact absurd rfl hbc
      | decide

/-- An index in the shared word is read back, and so is its bit. -/
theorem pack_idx {i : UInt32} (h : i < 3) : (i ||| dbDirty) &&& dbIdx = i ∧ i &&& dbIdx = i ∧
    (i ||| dbDirty) &&& dbDirty ≠ 0 ∧ i &&& dbDirty = 0 := by
  rcases Owned.cases h with rfl | rfl | rfl <;> decide

/-- What the writer has done of its call. -/
def WriterAt (s : DbSlot) : Writer → Prop
  | .length wb src => wb = s.wb ∧ src.length ≤ iocMax
  | .copy wb src k => wb = s.wb ∧ src.length ≤ iocMax ∧ k ≤ src.length ∧
      s.len wb = UInt8.ofNat src.length ∧ ∀ n < k, s.buf wb n = src.getD n 0
  | _ => True

/-- And the reader, against what an observer knows. -/
def ReaderAt (s : DbSlot) (o : Seen) : Reader → Prop
  | .idle => True
  | .load _ _ => o.flipped = false ∧ o.begun ≤ o.published.length
  | .flip _ _ => o.flipped = false ∧ o.begun ≤ o.published.length ∧ s.shared &&& dbDirty ≠ 0
  | .keep _ _ _ => o.flipped = true ∧ o.begun ≤ o.consumed
  | .size _ _ flipped => o.flipped = flipped ∧ o.begun ≤ o.consumed
  | .copy _ maxLen flipped rf n dst => o.flipped = flipped ∧ o.begun ≤ o.consumed ∧ rf = s.rf ∧
      n.toNat = min (o.value o.consumed).length maxLen.toNat ∧ dst.length ≤ n.toNat ∧
      dst = (o.value o.consumed).take dst.length

structure Inv (w : World) (o : Seen) : Prop where
  owned : Owned w.writerBuf w.sharedBuf w.readerBuf
  writer : WriterAt w.slot w.writer
  reader : ReaderAt w.slot o w.reader
  /-- The reader's buffer holds what was consumed last. -/
  front : Holds w.slot w.readerBuf (o.value o.consumed)
  /-- The shared one the latest publication, not consumed yet. -/
  dirty : w.slot.shared &&& dbDirty ≠ 0 → o.consumed < o.published.length ∧
    Holds w.slot w.sharedBuf (o.value o.published.length)
  clean : w.slot.shared &&& dbDirty = 0 → o.consumed = o.published.length

theorem Seen.value_append {o : Seen} {n : ℕ} (h : n ≤ o.published.length) (v : List UInt8) :
    ({ o with published := o.published ++ [v] } : Seen).value n = o.value n := by
  unfold Seen.value
  by_cases h0 : n = 0
  · simp [h0]
  · simp only [h0, if_false]
    rw [List.getD_append _ _ _ _ (by omega)]

theorem Seen.value_last (o : Seen) (v : List UInt8) :
    ({ o with published := o.published ++ [v] } : Seen).value (o.published.length + 1) = v := by
  simp [Seen.value]

namespace Inv

variable {w : World} {o : Seen}

theorem consumed_le (h : Inv w o) : o.consumed ≤ o.published.length := by
  by_cases hd : w.slot.shared &&& dbDirty = 0
  · exact (h.clean hd).le
  · exact (h.dirty hd).1.le

theorem writing_eq (h : Inv w o) {j : UInt32} (hj : w.writing = some j) : j = w.writerBuf := by
  have hw := h.writer
  cases hc : w.writer <;> simp_all [World.writing, World.writerBuf, WriterAt]

theorem copying_eq (h : Inv w o) {i : UInt32} (hi : w.copying = some i) : i = w.readerBuf := by
  have hr := h.reader
  unfold World.copying at hi
  cases hc : w.reader with
  | size fresh maxLen flipped =>
    rw [hc] at hi
    simp only [World.readerBuf, hc]
    exact (Option.some.inj hi).symm
  | copy fresh maxLen flipped rf n dst =>
    rw [hc] at hr hi
    simp only [World.readerBuf, hc]
    exact (Option.some.inj hi).symm.trans hr.2.2.1
  | _ => simp [hc] at hi

theorem apart (h : Inv w o) : ∀ i ∈ w.copying, ∀ j ∈ w.writing, i ≠ j := by
  intro i hi j hj
  rw [h.copying_eq hi, h.writing_eq hj]
  exact h.owned.ac.symm

end Inv

theorem inv_start : Inv World.start {} where
  owned := ⟨by decide, by decide, by decide, by decide, by decide, by decide⟩
  writer := trivial
  reader := trivial
  front := ⟨by simp [Seen.value], by simp [Seen.value, World.start], by simp [Seen.value]⟩
  dirty := fun h => absurd (by decide) h
  clean := fun _ => rfl

/-- The reader's side does not read what the writer changes. -/
theorem ReaderAt.congr {s s' : DbSlot} {o o' : Seen} {r : Reader} (h : ReaderAt s o r)
    (hrf : s'.rf = s.rf) (hdirty : s.shared &&& dbDirty ≠ 0 → s'.shared &&& dbDirty ≠ 0)
    (hflipped : o'.flipped = o.flipped) (hbegun : o'.begun = o.begun)
    (hconsumed : o'.consumed = o.consumed) (hpub : o.published.length ≤ o'.published.length)
    (hvalue : o'.value o'.consumed = o.value o.consumed) : ReaderAt s' o' r := by
  cases r with
  | idle => trivial
  | load => exact ⟨hflipped.trans h.1, hbegun ▸ h.2.trans hpub⟩
  | flip => exact ⟨hflipped.trans h.1, hbegun ▸ h.2.1.trans hpub, hdirty h.2.2⟩
  | keep => exact ⟨hflipped.trans h.1, hbegun ▸ hconsumed ▸ h.2⟩
  | size => exact ⟨hflipped.trans h.1, hbegun ▸ hconsumed ▸ h.2⟩
  | copy =>
    obtain ⟨hf, hb, hr, hn, hd, hdst⟩ := h
    simp only [ReaderAt, hvalue]
    exact ⟨hflipped.trans hf, hbegun ▸ hconsumed ▸ hb, hr.trans hrf.symm, hn, hd, hdst⟩

/-- A buffer that a write leaves alone still holds its value. -/
theorem Holds.congr {s s' : DbSlot} {i : UInt32} {v : List UInt8} (h : Holds s i v)
    (hlen : s'.len i = s.len i) (hbuf : s'.buf i = s.buf i) : Holds s' i v :=
  ⟨h.short, hlen.trans h.len, fun k hk => hbuf ▸ h.bytes k hk⟩

/-- The writer stores into its buffer: the others keep what they hold. -/
theorem inv_fill {w w' : World} {o : Seen} (h : Inv w o) (hreader : w'.reader = w.reader)
    (hshared : w'.slot.shared = w.slot.shared) (hrf : w'.slot.rf = w.slot.rf)
    (hbuf : w'.writerBuf = w.writerBuf) (hwriter : WriterAt w'.slot w'.writer)
    (hrest : ∀ i, i ≠ w.writerBuf → w'.slot.len i = w.slot.len i ∧ w'.slot.buf i = w.slot.buf i) :
    Inv w' o := by
  have hsb : w'.sharedBuf = w.sharedBuf := by simp only [World.sharedBuf, hshared]
  have hrb : w'.readerBuf = w.readerBuf := by simp only [World.readerBuf, hreader, hrf]
  have howned : Owned w'.writerBuf w'.sharedBuf w'.readerBuf := by
    rw [hbuf, hsb, hrb]
    exact h.owned
  refine ⟨howned, hwriter, ?_, ?_, ?_, ?_⟩
  · rw [hreader]
    exact h.reader.congr hrf (fun hd => hshared ▸ hd) rfl rfl rfl le_rfl rfl
  · rw [hrb]
    obtain ⟨hl, hb⟩ := hrest _ h.owned.ac.symm
    exact h.front.congr hl hb
  · intro hd
    rw [hshared] at hd
    rw [hsb]
    obtain ⟨hl, hb⟩ := hrest _ h.owned.ab.symm
    exact ⟨(h.dirty hd).1, (h.dirty hd).2.congr hl hb⟩
  · rw [hshared]
    exact h.clean

theorem inv_writer {w : World} {o : Seen} (h : Inv w o) :
    Inv w.stepWriter.1 (o.note w.stepWriter.2) := by
  have hw := h.writer
  unfold World.stepWriter
  cases hc : w.writer with
  | idle => exact h
  | length wb src =>
    rw [hc] at hw
    obtain ⟨rfl, hshort⟩ := hw
    have hwb : w.writerBuf = w.slot.wb := by simp only [World.writerBuf, hc]
    refine inv_fill h rfl rfl rfl hwb.symm ?_ ?_
    · exact ⟨rfl, hshort, Nat.zero_le _, by simp, by simp⟩
    · intro i hi
      rw [hwb] at hi
      simp [Function.update_of_ne hi]
  | copy wb src k =>
    rw [hc] at hw
    obtain ⟨rfl, hshort, hk, hlen, hbytes⟩ := hw
    have hwb : w.writerBuf = w.slot.wb := by simp only [World.writerBuf, hc]
    by_cases hmore : k < src.length
    · simp only [hmore, if_true]
      refine inv_fill h rfl rfl rfl hwb.symm ?_ ?_
      · refine ⟨rfl, hshort, hmore, hlen, ?_⟩
        intro n hn
        by_cases hnk : n = k
        · simp [hnk]
        · have hlt : n < k := by omega
          simpa [Function.update_of_ne hnk] using hbytes n hlt
      · intro i hi
        rw [hwb] at hi
        simp [Function.update_of_ne hi]
    · simp only [hmore, if_false]
      have hall : k = src.length := by omega
      have hpack := pack_idx (hwb ▸ h.owned.first)
      have hown := h.owned
      rw [hwb] at hown
      have hle := h.consumed_le
      have hv := o.value_append hle src
      have hs : (w.slot.wb ||| dbDirty) &&& dbIdx = w.slot.wb := hpack.1
      refine ⟨?_, trivial, ?_, ?_, ?_, ?_⟩
      · -- the writer and the shared word exchange their buffers
        change Owned w.sharedBuf ((w.slot.wb ||| dbDirty) &&& dbIdx) w.readerBuf
        rw [hs]
        exact ⟨hown.second, hown.first, hown.third, hown.ab.symm, hown.bc, hown.ac⟩
      · exact h.reader.congr rfl (fun _ => hpack.2.2.1) rfl rfl rfl (by simp [Seen.note]) hv
      · simp only [Seen.note, hv]
        exact h.front.congr rfl rfl
      · intro _
        simp only [Seen.note, World.sharedBuf, hs, List.length_append, List.length_singleton,
          o.value_last src]
        exact ⟨by omega, hshort, hlen, fun n hn => hbytes n (hall ▸ hn)⟩
      · intro hclean
        exact absurd hclean hpack.2.2.1
  | keep old =>
    have hwb : w.writerBuf = old &&& dbIdx := by simp only [World.writerBuf, hc]
    refine inv_fill h rfl rfl rfl hwb.symm trivial ?_
    intro i hi
    exact ⟨rfl, rfl⟩

theorem inv_reader {w : World} {o : Seen} (h : Inv w o) :
    Inv w.stepReader.1 (o.note w.stepReader.2) := by
  have hr := h.reader
  unfold World.stepReader
  cases hc : w.reader with
  | idle => exact h
  | load fresh maxLen =>
    rw [hc] at hr
    have hrb : w.readerBuf = w.slot.rf := by simp only [World.readerBuf, hc]
    have hown := h.owned
    have hfront := h.front
    rw [hrb] at hown hfront
    by_cases hd : w.slot.shared &&& dbDirty ≠ 0
    · simp only [if_pos hd]
      exact ⟨hown, h.writer, ⟨hr.1, hr.2, hd⟩, hfront, h.dirty, h.clean⟩
    · simp only [if_neg hd]
      have hclean := h.clean (not_not.mp hd)
      exact ⟨hown, h.writer, ⟨hr.1, hclean ▸ hr.2⟩, hfront, h.dirty, h.clean⟩
  | flip fresh maxLen =>
    rw [hc] at hr
    have hrb : w.readerBuf = w.slot.rf := by simp only [World.readerBuf, hc]
    have hown := h.owned
    rw [hrb] at hown
    have hpack := pack_idx hown.third
    have hdirty := h.dirty hr.2.2
    refine ⟨?_, h.writer, ⟨rfl, hr.2.1⟩, hdirty.2.congr rfl rfl, ?_, ?_⟩
    · -- the reader and the shared word exchange theirs
      change Owned w.writerBuf (w.slot.rf &&& dbIdx) w.sharedBuf
      rw [hpack.2.1]
      exact ⟨hown.first, hown.third, hown.second, hown.ac, hown.ab, hown.bc.symm⟩
    · intro hd
      exact absurd hpack.2.2.2 hd
    · intro _
      rfl
  | keep fresh maxLen old =>
    rw [hc] at hr
    have hrb : w.readerBuf = old &&& dbIdx := by simp only [World.readerBuf, hc]
    have hown := h.owned
    have hfront := h.front
    rw [hrb] at hown hfront
    exact ⟨hown, h.writer, hr, hfront.congr rfl rfl,
      fun hd => ⟨(h.dirty hd).1, (h.dirty hd).2.congr rfl rfl⟩, h.clean⟩
  | size fresh maxLen flipped =>
    rw [hc] at hr
    have hrb : w.readerBuf = w.slot.rf := by simp only [World.readerBuf, hc]
    have hown := h.owned
    have hfront := h.front
    rw [hrb] at hown hfront
    refine ⟨hown, h.writer, ⟨hr.1, hr.2, rfl, ?_, Nat.zero_le _, rfl⟩, hfront, h.dirty, h.clean⟩
    have hlen := hfront.toNat_len
    change (if w.slot.len w.slot.rf > maxLen then maxLen else w.slot.len w.slot.rf).toNat =
      min (o.value o.consumed).length maxLen.toNat
    by_cases hmax : w.slot.len w.slot.rf > maxLen
    · have hlt : maxLen.toNat < (w.slot.len w.slot.rf).toNat := hmax
      rw [if_pos hmax]
      omega
    · have hge : ¬ maxLen.toNat < (w.slot.len w.slot.rf).toNat := hmax
      rw [if_neg hmax]
      omega
  | copy fresh maxLen flipped rf n dst =>
    rw [hc] at hr
    obtain ⟨hf, hb, rfl, hn, hd, hdst⟩ := hr
    have hrb : w.readerBuf = w.slot.rf := by simp only [World.readerBuf, hc]
    have hown := h.owned
    have hfront := h.front
    rw [hrb] at hown hfront
    by_cases hmore : dst.length < n.toNat
    · simp only [hmore, if_true]
      refine ⟨hown, h.writer, ⟨hf, hb, rfl, hn, by simp; omega, ?_⟩, hfront, h.dirty,
        h.clean⟩
      have hlt : dst.length < (o.value o.consumed).length := by omega
      have hbyte := hfront.bytes _ hlt
      simp only [List.length_append, List.length_singleton, Seen.note]
      rw [List.take_succ_eq_append_getElem hlt, ← hdst, hbyte, List.getD_eq_getElem _ _ hlt]
    · simp only [hmore, if_false]
      exact ⟨hown, h.writer, trivial, hfront, h.dirty, h.clean⟩

theorem inv_step {w : World} {o : Seen} (h : Inv w o) (e : Event) :
    Inv (w.step e).1 (o.note (w.step e).2) := by
  cases e with
  | writer => exact inv_writer h
  | reader => exact inv_reader h
  | publish src =>
    simp only [World.step]
    cases hc : w.writer with
    | idle =>
      by_cases hlong : iocMax < src.length
      · simp only [hlong, if_true]
        exact h
      · simp only [hlong, if_false]
        have hwb : w.writerBuf = w.slot.wb := by simp only [World.writerBuf, hc]
        refine inv_fill h rfl rfl rfl hwb.symm ⟨rfl, by omega⟩ ?_
        intro i hi
        exact ⟨rfl, rfl⟩
    | _ => exact h
  | acquire fresh maxLen =>
    simp only [World.step]
    cases hc : w.reader with
    | idle =>
      have hrb : w.readerBuf = w.slot.rf := by simp only [World.readerBuf, hc]
      have hown := h.owned
      have hfront := h.front
      rw [hrb] at hown hfront
      exact ⟨hown, h.writer, ⟨rfl, le_rfl⟩, hfront, h.dirty, h.clean⟩
    | _ => exact h

/-- What a call of the reader gives back. -/
theorem delivered_spec {w : World} {o : Seen} (h : Inv w o) {fresh ret : Bool} {maxLen : UInt8}
    {dst : List UInt8} (hl : w.stepReader.2 = .delivered fresh maxLen ret dst) :
    dst = (o.value o.consumed).take maxLen.toNat ∧ o.begun ≤ o.consumed ∧
      (ret = true ↔ dst ≠ [] ∧ (fresh = true → o.flipped = true)) := by
  have hr := h.reader
  unfold World.stepReader at hl
  cases hc : w.reader with
  | copy fresh' maxLen' flipped rf n dst' =>
    rw [hc] at hr hl
    obtain ⟨hf, hb, rfl, hn, hd, hdst⟩ := hr
    by_cases hmore : dst'.length < n.toNat
    · simp [hmore] at hl
    · simp only [hmore, if_false, Note.delivered.injEq] at hl
      obtain ⟨rfl, rfl, rfl, rfl⟩ := hl
      have hlen : dst'.length = min (o.value o.consumed).length maxLen'.toNat := by omega
      refine ⟨?_, hb, ?_⟩
      · rw [hdst, hlen, List.take_eq_take_iff]
        omega
      · have hpos : n > 0 ↔ dst' ≠ [] := by
          have hn0 : n > 0 ↔ 0 < n.toNat := Iff.rfl
          rw [hn0, ← List.length_pos_iff]
          omega
        simp only [hf, hpos]
        cases fresh' <;> cases flipped <;> simp
  | load => by_cases hd : w.slot.shared &&& dbDirty = 0 <;> simp [hc, hd] at hl
  | _ => simp [hc] at hl

theorem left_writer (w : World) : w.stepWriter.1.left = w.left := by
  unfold World.stepWriter
  cases hc : w.writer with
  | copy wb src k => by_cases hmore : k < src.length <;> simp [World.left, hmore]
  | _ => simp [World.left]

theorem left_reader {w : World} (h : w.left ≠ 0) : w.stepReader.1.left < w.left := by
  unfold World.stepReader
  cases hc : w.reader with
  | idle => simp [World.left, hc] at h
  | load fresh maxLen =>
    by_cases hd : w.slot.shared &&& dbDirty = 0 <;> simp [World.left, hc, hd]
  | flip fresh maxLen => simp [World.left, hc]
  | keep fresh maxLen old => simp [World.left, hc]
  | size fresh maxLen flipped =>
    by_cases hmax : w.slot.len w.slot.rf > maxLen
    · simp [World.left, hc, hmax]
    · have hle : ¬ maxLen.toNat < (w.slot.len w.slot.rf).toNat := hmax
      simp only [World.left, hc, hmax, if_false, List.length_nil]
      omega
  | copy fresh maxLen flipped rf n dst =>
    by_cases hmore : dst.length < n.toNat
    · simp only [World.left, hc, hmore, if_true, List.length_append, List.length_singleton]
      omega
    · simp [World.left, hc, hmore]

theorem left_step {w : World} (h : w.left ≠ 0) (e : Event) :
    if e = .reader then (w.step e).1.left < w.left else (w.step e).1.left = w.left := by
  cases e with
  | writer => simpa [World.step] using left_writer w
  | reader => simpa [World.step] using left_reader h
  | publish src =>
    simp only [World.step]
    cases hc : w.writer with
    | idle => by_cases hlong : iocMax < src.length <;> simp [World.left, hlong]
    | _ => simp
  | acquire fresh maxLen =>
    simp only [World.step]
    cases hc : w.reader with
    | idle => simp [World.left, hc] at h
    | _ => simp

/-- Only the reader's accesses consume and deliver. -/
theorem reader_of_label {w : World} {e : Event}
    (h : (w.step e).2 = .consumed ∨ ∃ fresh maxLen ret dst,
      (w.step e).2 = .delivered fresh maxLen ret dst) : e = .reader := by
  cases e with
  | reader => rfl
  | writer =>
    simp only [World.step, World.stepWriter] at h
    cases hc : w.writer with
    | copy wb src k => by_cases hmore : k < src.length <;> simp [hc, hmore] at h
    | _ => simp [hc] at h
  | publish src =>
    simp only [World.step] at h
    cases hc : w.writer with
    | idle => by_cases hlong : iocMax < src.length <;> simp [hc, hlong] at h
    | _ => simp [hc] at h
  | acquire fresh maxLen =>
    simp only [World.step] at h
    cases hc : w.reader <;> simp [hc] at h

theorem consumed_spec {w : World} {o : Seen} (h : Inv w o) (hl : w.stepReader.2 = .consumed) :
    o.consumed < o.published.length := by
  have hr := h.reader
  unfold World.stepReader at hl
  cases hc : w.reader with
  | flip fresh maxLen =>
    rw [hc] at hr
    exact (h.dirty hr.2.2).1
  | load => by_cases hd : w.slot.shared &&& dbDirty = 0 <;> simp [hc, hd] at hl
  | copy fresh maxLen flipped rf n dst => by_cases hm : dst.length < n.toNat <;> simp [hc, hm] at hl
  | _ => simp [hc] at hl

theorem Seen.consumed_mono {o : Seen} (h : o.consumed ≤ o.published.length) (n : Note) :
    o.consumed ≤ (o.note n).consumed := by
  cases n <;> simp [Seen.note, h]

/-- In every interleaving of the writer's accesses and the reader's. -/
theorem values_handed_over (es : List Event) :
    Trace.Along Handed (Trace.history World.step World.start es) := by
  refine (Trace.run_along (I := fun w hist => Inv w (seen hist)) (C := fun _ _ => True)
    inv_start ?_ es (fun _ _ _ _ => trivial)).2
  intro es e hinv _
  have hafter := inv_step hinv e
  have hreader := fun h => reader_of_label (w := Trace.final World.step World.start es) (e := e) h
  rw [seen_snoc]
  refine ⟨hafter, hafter.owned.perm, hafter.apart, ?_, ?_, ?_, ?_, ?_,
    fun hl => left_step hl e⟩
  · intro hl
    obtain rfl := hreader (.inl hl)
    exact consumed_spec hinv hl
  · rw [seen_snoc]
    exact Seen.consumed_mono hinv.consumed_le _
  · intro fresh maxLen ret dst hl
    obtain rfl := hreader (.inr ⟨fresh, maxLen, ret, dst, hl⟩)
    have hd := delivered_spec hinv hl
    exact ⟨hd.1, hd.2.1, hinv.consumed_le⟩
  · intro fresh maxLen ret dst hl
    obtain rfl := hreader (.inr ⟨fresh, maxLen, ret, dst, hl⟩)
    exact (delivered_spec hinv hl).2.2
  · intro fresh maxLen ret dst hl hbegun
    obtain rfl := hreader (.inr ⟨fresh, maxLen, ret, dst, hl⟩)
    have hd := delivered_spec hinv hl
    have hle := hinv.consumed_le
    have heq : (seen (Trace.history World.step World.start es)).consumed =
        (seen (Trace.history World.step World.start es)).published.length := by omega
    rw [← heq]
    exact hd.1

/-- An empty value is published, and taken by a call. -/
def emptyValue : List Event :=
  [.publish [], .writer, .writer, .writer, .acquire true 8, .reader, .reader, .reader, .reader,
    .reader]

/-- It is consumed, but the call does not report it. -/
theorem empty_value_unreported :
    (seen (Trace.history World.step World.start emptyValue)).consumed = 1 ∧
      (seen (Trace.history World.step World.start emptyValue)).flipped = true ∧
      ((Trace.history World.step World.start emptyValue).getLast?.map (·.label)) =
        some (.delivered true 8 false []) := by
  decide

end BloblyEmb.Osal
