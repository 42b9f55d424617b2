import BloblyEmb.Osal.TripleBuffer

/-!
# The sequence lock

Values of one writer to any reader (`osal`), in place: the writer makes the sequence number odd,
overwrites the value and makes it even again, and a reader copies until it finds the same even number
before and after. Every access of the two sides is a step of its own, in any order.
-/
namespace BloblyEmb.Osal.Seqlock

/-- `ioc_slot_t` -/
structure IocSlot where
  /-- Even is stable, odd a write in progress, 0 never written. -/
  seq : UInt32
  len : UInt8
  data : ℕ → UInt8

/-- Where `blob_ioc_write` is. -/
inductive Writer where
  | idle
  | load (src : List UInt8)
  | mark (src : List UInt8) (seq : UInt32)
  | length (src : List UInt8) (seq : UInt32)
  | copy (src : List UInt8) (seq : UInt32) (k : ℕ)

/-- And `blob_ioc_read`, with the caller's buffer. -/
inductive Reader where
  | idle
  | load (maxLen : UInt8) (dst : ℕ → UInt8)
  | size (maxLen : UInt8) (dst : ℕ → UInt8) (seq0 : UInt32)
  | copy (maxLen : UInt8) (dst : ℕ → UInt8) (seq0 : UInt32) (n : UInt8) (k : ℕ)

structure World where
  slot : IocSlot
  writer : Writer
  reader : Reader

/-- The shared memory is zero at first. -/
def World.start : World where
  slot := { seq := 0, len := 0, data := fun _ => 0 }
  writer := .idle
  reader := .idle

inductive Event where
  /-- A call of `blob_ioc_write`, and one access of the call under way. -/
  | write (src : List UInt8)
  | writer
  | read (maxLen : UInt8) (dst : ℕ → UInt8)
  | reader

/-- What a step did that the other steps of its side do not. -/
inductive Note where
  | quiet
  | called (dst : ℕ → UInt8)
  | began
  | again
  | published (v : List UInt8)
  | delivered (maxLen : UInt8) (ret : Bool) (dst : ℕ → UInt8)

namespace World

def stepWriter (w : World) : World × Note :=
  match w.writer with
  | .idle => (w, .quiet)
  | .load src => ({ w with writer := .mark src (w.slot.seq + 1) }, .quiet)
  | .mark src seq => ({ w with slot := { w.slot with seq := seq }, writer := .length src seq }, .quiet)
  | .length src seq =>
    let s := { w.slot with len := UInt8.ofNat src.length }
    ({ w with slot := s, writer := .copy src seq 0 }, .quiet)
  | .copy src seq k =>
    if k < src.length then
      let s := { w.slot with data := Function.update w.slot.data k (src.getD k 0) }
      ({ w with slot := s, writer := .copy src seq (k + 1) }, .quiet)
    else ({ w with slot := { w.slot with seq := seq + 1 }, writer := .idle }, .published src)

def stepReader (w : World) : World × Note :=
  match w.reader with
  | .idle => (w, .quiet)
  | .load maxLen dst =>
    if w.slot.seq = 0 then ({ w with reader := .idle }, .delivered maxLen false dst)
    else if w.slot.seq &&& 1 ≠ 0 then (w, .again)
    else ({ w with reader := .size maxLen dst w.slot.seq }, .began)
  | .size maxLen dst seq0 =>
    let n := if w.slot.len > maxLen then maxLen else w.slot.len
    ({ w with reader := .copy maxLen dst seq0 n 0 }, .quiet)
  | .copy maxLen dst seq0 n k =>
    if k < n.toNat then
      let dst' := Function.update dst k (w.slot.data k)
      ({ w with reader := .copy maxLen dst' seq0 n (k + 1) }, .quiet)
    else if seq0 = w.slot.seq then ({ w with reader := .idle }, .delivered maxLen true dst)
    else ({ w with reader := .load maxLen dst }, .again)

/-- One access, or a call of a side that is not in one. -/
def step (w : World) : Event → World × Note
  | .write src =>
    match w.writer with
    | .idle =>
      if iocMax < src.length then (w, .quiet)
      else ({ w with writer := .load src }, .quiet)
    | _ => (w, .quiet)
  | .writer => w.stepWriter
  | .read maxLen dst =>
    match w.reader with
    | .idle => ({ w with reader := .load maxLen dst }, .called dst)
    | _ => (w, .quiet)
  | .reader => w.stepReader

/-- The writer is between its two stores of the number. -/
def writing (w : World) : Bool :=
  match w.writer with
  | .length _ _ | .copy _ _ _ => true
  | _ => false

end World

/-! ## What an observer knows -/

structure Seen where
  published : List (List UInt8) := []
  /-- The publications when the reader's call began, and when its present pass did. -/
  begun : ℕ := 0
  loaded : ℕ := 0
  /-- The caller's buffer when its call began. -/
  given : ℕ → UInt8 := fun _ => 0

def Seen.note (o : Seen) : Note → Seen
  | .called dst => { o with begun := o.published.length, given := dst }
  | .began => { o with loaded := o.published.length }
  | .published v => { o with published := o.published ++ [v] }
  | _ => o

abbrev Step := Trace.Entry World Event Note

def seen (hist : List Step) : Seen := hist.foldl (fun o x => o.note x.label) {}

@[simp] theorem seen_snoc (hist : List Step) (x : Step) :
    seen (hist ++ [x]) = (seen hist).note x.label := by
  simp [seen, List.foldl_append]

/-- The `n`-th publication. -/
def Seen.value (o : Seen) (n : ℕ) : List UInt8 := o.published.getD (n - 1) []

/-- What holds of each step of a run. -/
structure Whole (hist : List Step) (x : Step) : Prop where
  /-- A call that returns 1 hands over the latest publication as it was put, cut to the capacity: no
  older than the call, and nothing was published since its number was read, unless so many were that
  the number came round. -/
  deliver : ∀ maxLen dst, x.label = .delivered maxLen true dst →
    (seen hist).published.length < (seen hist).loaded + 2 ^ 31 →
    (seen hist).published ≠ [] ∧ (seen hist).loaded = (seen hist).published.length ∧
      ∀ k < min ((seen hist).value (seen hist).published.length).length maxLen.toNat,
        dst k = ((seen hist).value (seen hist).published.length).getD k 0
  fresh : ∀ maxLen dst, x.label = .delivered maxLen true dst →
    (seen hist).begun ≤ (seen hist).loaded
  /-- One that returns 0 finds the number 0: nothing was published, or the number came round. -/
  never : ∀ maxLen dst, x.label = .delivered maxLen false dst →
    2 ^ 31 ∣ (seen hist).published.length
  /-- The caller's buffer is written up to its capacity. -/
  within : ∀ maxLen ret dst, x.label = .delivered maxLen ret dst → ∀ k, maxLen.toNat ≤ k →
    dst k = (seen hist).given k
  /-- A pass is repeated when a write is under way or was published since it began. -/
  retry : x.label = .again → x.before.writing = true ∨
    (seen hist).loaded < (seen hist).published.length

/-! ## The invariant -/

/-- The slot holds a value. -/
structure Holds (s : IocSlot) (v : List UInt8) : Prop where
  short : v.length ≤ iocMax
  len : s.len = UInt8.ofNat v.length
  bytes : ∀ k < v.length, s.data k = v.getD k 0

theorem Holds.toNat_len {s : IocSlot} {v : List UInt8} (h : Holds s v) :
    s.len.toNat = v.length := by
  have hshort := h.short
  have hmax : iocMax = 64 := rfl
  rw [h.len, UInt8.toNat_ofNat']
  omega

/-- What the writer has done of its call. -/
def WriterAt (s : IocSlot) : Writer → Prop
  | .idle => True
  | .load src => src.length ≤ iocMax
  | .mark src seq => src.length ≤ iocMax ∧ seq = s.seq + 1
  | .length src seq => src.length ≤ iocMax ∧ seq = s.seq
  | .copy src seq k => src.length ≤ iocMax ∧ seq = s.seq ∧ k ≤ src.length ∧
      s.len = UInt8.ofNat src.length ∧ ∀ n < k, s.data n = src.getD n 0

/-- What a pass has copied is of the latest value, while that is the one of its start. -/
def Copied (o : Seen) (maxLen n : UInt8) (dst : ℕ → UInt8) (k : ℕ) : Prop :=
  n.toNat = min (o.value o.published.length).length maxLen.toNat ∧
    ∀ j < k, dst j = (o.value o.published.length).getD j 0

/-- A pass that has read the number of the publications up to `loaded`. -/
structure Pass (o : Seen) (maxLen : UInt8) (dst : ℕ → UInt8) (seq0 : UInt32) : Prop where
  number : seq0.toNat = 2 * o.loaded % 2 ^ 32
  nonzero : seq0 ≠ 0
  begun : o.begun ≤ o.loaded
  loaded : o.loaded ≤ o.published.length
  outside : ∀ k, maxLen.toNat ≤ k → dst k = o.given k

/-- Where the reader is, against what an observer knows. -/
def ReaderAt (o : Seen) (writing : Bool) : Reader → Prop
  | .idle => True
  | .load maxLen dst => o.begun ≤ o.published.length ∧ ∀ k, maxLen.toNat ≤ k → dst k = o.given k
  | .size maxLen dst seq0 => Pass o maxLen dst seq0
  | .copy maxLen dst seq0 n k => Pass o maxLen dst seq0 ∧ n.toNat ≤ maxLen.toNat ∧ k ≤ n.toNat ∧
      (o.loaded = o.published.length → writing = false → Copied o maxLen n dst k)

structure Inv (w : World) (o : Seen) : Prop where
  number : w.slot.seq.toNat = (2 * o.published.length + w.writing.toNat) % 2 ^ 32
  writer : WriterAt w.slot w.writer
  reader : ReaderAt o w.writing w.reader
  /-- Outside a write the slot holds the latest publication. -/
  latest : w.writing = false → o.published ≠ [] → Holds w.slot (o.value o.published.length)

theorem inv_start : Inv World.start {} where
  number := rfl
  writer := trivial
  reader := trivial
  latest := fun _ h => absurd rfl h

theorem Seen.value_last (o : Seen) (v : List UInt8) :
    ({ o with published := o.published ++ [v] } : Seen).value (o.published.length + 1) = v := by
  simp [Seen.value]

/-- The writer enters or goes on with a write: what a pass knows is of the value before it. -/
theorem ReaderAt.written {o : Seen} {writing : Bool} {r : Reader} (h : ReaderAt o writing r) :
    ReaderAt o true r := by
  cases r with
  | idle => trivial
  | load => exact h
  | size => exact h
  | copy => exact ⟨h.1, h.2.1, h.2.2.1, fun _ hw => (by cases hw)⟩

/-- And it publishes: the pass began before that. -/
theorem ReaderAt.published {o : Seen} {writing writing' : Bool} {r : Reader} (v : List UInt8)
    (h : ReaderAt o writing r) : ReaderAt (o.note (.published v)) writing' r := by
  have hlen : (o.note (.published v)).published.length = o.published.length + 1 := by
    simp [Seen.note]
  have hpass : ∀ {maxLen dst seq0}, Pass o maxLen dst seq0 →
      Pass (o.note (.published v)) maxLen dst seq0 := fun hp =>
    ⟨hp.number, hp.nonzero, hp.begun, by rw [hlen]; exact Nat.le_succ_of_le hp.loaded, hp.outside⟩
  cases r with
  | idle => trivial
  | load => exact ⟨by rw [hlen]; exact Nat.le_succ_of_le h.1, h.2⟩
  | size => exact hpass h
  | copy =>
    refine ⟨hpass h.1, h.2.1, h.2.2.1, fun heq _ => ?_⟩
    have hle := h.1.loaded
    change o.loaded = _ at heq
    rw [hlen] at heq
    omega

theorem toNat_succ (a : UInt32) : (a + 1).toNat = (a.toNat + 1) % 2 ^ 32 := by
  rw [UInt32.toNat_add, show (1 : UInt32).toNat = 1 by rfl]

theorem inv_writer {w : World} {o : Seen} (h : Inv w o) :
    Inv w.stepWriter.1 (o.note w.stepWriter.2) := by
  have hnum := h.number
  have hw := h.writer
  have hr := h.reader
  have hlatest := h.latest
  unfold World.stepWriter
  cases hc : w.writer with
  | idle => exact h
  | load src =>
    simp only [World.writing, hc] at hnum hr hlatest
    rw [hc] at hw
    exact ⟨hnum, ⟨hw, rfl⟩, hr, fun _ => hlatest trivial⟩
  | mark src seq =>
    simp only [World.writing, hc, Bool.toNat_false, Nat.add_zero] at hnum
    rw [hc] at hw
    obtain ⟨hshort, rfl⟩ := hw
    refine ⟨?_, ⟨hshort, rfl⟩, hr.written, fun hq => (by cases hq)⟩
    simp only [World.writing, Seen.note, Bool.toNat_true, toNat_succ, hnum]
    omega
  | length src seq =>
    simp only [World.writing, hc, Bool.toNat_true] at hnum
    rw [hc] at hw
    obtain ⟨hshort, rfl⟩ := hw
    exact ⟨hnum, ⟨hshort, rfl, Nat.zero_le _, rfl, fun n hn => absurd hn (Nat.not_lt_zero n)⟩,
      hr.written, fun hq => (by cases hq)⟩
  | copy src seq k =>
    simp only [World.writing, hc, Bool.toNat_true] at hnum
    rw [hc] at hw
    obtain ⟨hshort, rfl, hk, hlen, hbytes⟩ := hw
    dsimp only
    by_cases hmore : k < src.length
    · rw [if_pos hmore]
      refine ⟨hnum, ⟨hshort, rfl, hmore, hlen, fun n hn => ?_⟩, hr.written, fun hq => (by cases hq)⟩
      dsimp only
      by_cases hnk : n = k
      · rw [hnk, Function.update_self]
      · rw [Function.update_of_ne hnk]
        exact hbytes n (by omega)
    · rw [if_neg hmore]
      refine ⟨?_, trivial, hr.published src, fun _ _ => ?_⟩
      · simp only [World.writing, Seen.note, Bool.toNat_false, toNat_succ, hnum, List.length_append,
          List.length_singleton]
        omega
      · simp only [Seen.note, List.length_append, List.length_singleton]
        rw [o.value_last src]
        exact ⟨hshort, hlen, fun n hn => hbytes n (by omega)⟩

theorem even_of_and {a : UInt32} (h : ¬a &&& 1 ≠ 0) : a.toNat % 2 = 0 := by
  have heq : a &&& 1 = 0 := not_not.mp h
  have := congrArg UInt32.toNat heq
  rwa [UInt32.toNat_and, show (1 : UInt32).toNat = 1 by rfl, Nat.and_one_is_mod] at this

theorem odd_of_and {a : UInt32} (h : a &&& 1 ≠ 0) : a.toNat % 2 = 1 := by
  by_contra hne
  refine h (UInt32.toNat_inj.mp ?_)
  rw [UInt32.toNat_and, show (1 : UInt32).toNat = 1 by rfl, Nat.and_one_is_mod]
  change a.toNat % 2 = 0
  omega

theorem Inv.writing_of_odd {w : World} {o : Seen} (h : Inv w o) (hodd : w.slot.seq.toNat % 2 = 1) :
    w.writing = true := by
  have hnum := h.number
  cases hw : w.writing with
  | true => rfl
  | false =>
    rw [hw, Bool.toNat_false] at hnum
    omega

theorem Inv.idle_of_even {w : World} {o : Seen} (h : Inv w o) (heven : w.slot.seq.toNat % 2 = 0) :
    w.writing = false := by
  have hnum := h.number
  cases hw : w.writing with
  | false => rfl
  | true =>
    rw [hw, Bool.toNat_true] at hnum
    omega

theorem inv_reader {w : World} {o : Seen} (h : Inv w o) :
    Inv w.stepReader.1 (o.note w.stepReader.2) := by
  have hr := h.reader
  unfold World.stepReader
  cases hc : w.reader with
  | idle => exact h
  | load maxLen dst =>
    rw [hc] at hr
    dsimp only
    by_cases h0 : w.slot.seq = 0
    · rw [if_pos h0]
      exact ⟨h.number, h.writer, trivial, h.latest⟩
    · rw [if_neg h0]
      by_cases hodd : w.slot.seq &&& 1 ≠ 0
      · rw [if_pos hodd]
        exact h
      · rw [if_neg hodd]
        have hidle := h.idle_of_even (even_of_and hodd)
        have hnum := h.number
        rw [hidle, Bool.toNat_false, Nat.add_zero] at hnum
        exact ⟨h.number, h.writer, ⟨hnum, h0, hr.1, Nat.le_refl _, hr.2⟩, h.latest⟩
  | size maxLen dst seq0 =>
    rw [hc] at hr
    have hpass : Pass o maxLen dst seq0 := hr
    have hmin : (if w.slot.len > maxLen then maxLen else w.slot.len).toNat =
        min w.slot.len.toNat maxLen.toNat := by
      by_cases hmax : w.slot.len > maxLen
      · have hlt : maxLen.toNat < w.slot.len.toNat := hmax
        rw [if_pos hmax]
        omega
      · have hge : ¬maxLen.toNat < w.slot.len.toNat := hmax
        rw [if_neg hmax]
        omega
    refine ⟨h.number, h.writer, ⟨hpass, ?_, Nat.zero_le _, fun heq hidle => ⟨?_, ?_⟩⟩, h.latest⟩
    · rw [hmin]
      exact Nat.min_le_right _ _
    · change o.loaded = o.published.length at heq
      have hne : o.published ≠ [] := by
        intro hnil
        refine hpass.nonzero (UInt32.toNat_inj.mp ?_)
        rw [hpass.number, heq, hnil]
        rfl
      rw [hmin, (h.latest hidle hne).toNat_len]
      rfl
    · intro j hj
      exact absurd hj (Nat.not_lt_zero j)
  | copy maxLen dst seq0 n k =>
    rw [hc] at hr
    obtain ⟨hpass, hn, hk, hcopied⟩ := hr
    dsimp only
    by_cases hmore : k < n.toNat
    · rw [if_pos hmore]
      refine ⟨h.number, h.writer, ⟨⟨hpass.number, hpass.nonzero, hpass.begun, hpass.loaded,
        fun j hj => ?_⟩, hn, hmore, fun heq hidle => ⟨(hcopied heq hidle).1, fun j hj => ?_⟩⟩, h.latest⟩
      · rw [Function.update_of_ne (by omega)]
        exact hpass.outside j hj
      · by_cases hjk : j = k
        · have hne : o.published ≠ [] := by
            intro hnil
            refine hpass.nonzero (UInt32.toNat_inj.mp ?_)
            have heq' : o.loaded = o.published.length := heq
            rw [hpass.number, heq', hnil]
            rfl
          have hlen := (hcopied heq hidle).1
          rw [hjk, Function.update_self]
          exact (h.latest hidle hne).bytes k (by omega)
        · rw [Function.update_of_ne hjk]
          exact (hcopied heq hidle).2 j (by omega)
    · rw [if_neg hmore]
      by_cases hsame : seq0 = w.slot.seq
      · rw [if_pos hsame]
        exact ⟨h.number, h.writer, trivial, h.latest⟩
      · rw [if_neg hsame]
        exact ⟨h.number, h.writer, ⟨Nat.le_trans hpass.begun hpass.loaded, hpass.outside⟩, h.latest⟩

theorem inv_step {w : World} {o : Seen} (h : Inv w o) (e : Event) :
    Inv (w.step e).1 (o.note (w.step e).2) := by
  cases e with
  | writer => exact inv_writer h
  | reader => exact inv_reader h
  | write src =>
    simp only [World.step]
    cases hc : w.writer with
    | idle =>
      have hnum := h.number
      have hr := h.reader
      have hlatest := h.latest
      simp only [World.writing, hc] at hnum hr hlatest
      by_cases hlong : iocMax < src.length
      · simp only [hlong, if_true]
        exact h
      · simp only [hlong, if_false]
        exact ⟨hnum, Nat.le_of_not_lt hlong, hr, fun _ => hlatest trivial⟩
    | _ => exact h
  | read maxLen dst =>
    simp only [World.step]
    cases hc : w.reader with
    | idle => exact ⟨h.number, h.writer, ⟨Nat.le_refl _, fun _ _ => rfl⟩, h.latest⟩
    | _ => exact h

/-! ## What a call of the reader gives back -/

theorem reader_load {w : World} {maxLen : UInt8} {dst : ℕ → UInt8}
    (hc : w.reader = .load maxLen dst) :
    (w.slot.seq = 0 ∧ w.stepReader.2 = .delivered maxLen false dst) ∨
      (w.slot.seq.toNat % 2 = 1 ∧ w.stepReader.2 = .again) ∨ w.stepReader.2 = .began := by
  unfold World.stepReader
  rw [hc]
  dsimp only
  by_cases h0 : w.slot.seq = 0
  · rw [if_pos h0]
    exact .inl ⟨h0, rfl⟩
  · rw [if_neg h0]
    by_cases hodd : w.slot.seq &&& 1 ≠ 0
    · rw [if_pos hodd]
      exact .inr (.inl ⟨odd_of_and hodd, rfl⟩)
    · rw [if_neg hodd]
      exact .inr (.inr rfl)

theorem reader_copy {w : World} {maxLen n : UInt8} {dst : ℕ → UInt8} {seq0 : UInt32} {k : ℕ}
    (hc : w.reader = .copy maxLen dst seq0 n k) :
    w.stepReader.2 = .quiet ∨
      (n.toNat ≤ k ∧ seq0 = w.slot.seq ∧ w.stepReader.2 = .delivered maxLen true dst) ∨
        (seq0 ≠ w.slot.seq ∧ w.stepReader.2 = .again) := by
  unfold World.stepReader
  rw [hc]
  dsimp only
  by_cases hmore : k < n.toNat
  · rw [if_pos hmore]
    exact .inl rfl
  · rw [if_neg hmore]
    by_cases hsame : seq0 = w.slot.seq
    · rw [if_pos hsame]
      exact .inr (.inl ⟨Nat.le_of_not_lt hmore, hsame, rfl⟩)
    · rw [if_neg hsame]
      exact .inr (.inr ⟨hsame, rfl⟩)

/-- A call returns at its first look at the number, with 0, or after a whole pass, with 1. -/
theorem delivered_cases {w : World} {maxLen : UInt8} {ret : Bool} {dst : ℕ → UInt8}
    (hl : w.stepReader.2 = .delivered maxLen ret dst) :
    (ret = false ∧ w.reader = .load maxLen dst ∧ w.slot.seq = 0) ∨
      ∃ seq0 n k, ret = true ∧ w.reader = .copy maxLen dst seq0 n k ∧ n.toNat ≤ k ∧
        seq0 = w.slot.seq := by
  cases hc : w.reader with
  | idle =>
    simp only [World.stepReader, hc] at hl
    cases hl
  | size maxLen' dst' seq0 =>
    simp only [World.stepReader, hc] at hl
    cases hl
  | load maxLen' dst' =>
    rcases reader_load hc with ⟨h0, heq⟩ | ⟨-, heq⟩ | heq
    · rw [heq, Note.delivered.injEq] at hl
      obtain ⟨rfl, rfl, rfl⟩ := hl
      exact .inl ⟨rfl, rfl, h0⟩
    · rw [heq] at hl
      cases hl
    · rw [heq] at hl
      cases hl
  | copy maxLen' dst' seq0 n k =>
    rcases reader_copy hc with heq | ⟨hk, hsame, heq⟩ | ⟨-, heq⟩
    · rw [heq] at hl
      cases hl
    · rw [heq, Note.delivered.injEq] at hl
      obtain ⟨rfl, rfl, rfl⟩ := hl
      exact .inr ⟨seq0, n, k, rfl, rfl, hk, hsame⟩
    · rw [heq] at hl
      cases hl

theorem deliver_spec {w : World} {o : Seen} (h : Inv w o) {maxLen : UInt8} {dst : ℕ → UInt8}
    (hl : w.stepReader.2 = .delivered maxLen true dst) :
    o.begun ≤ o.loaded ∧ (o.published.length < o.loaded + 2 ^ 31 →
      o.published ≠ [] ∧ o.loaded = o.published.length ∧
        ∀ k < min (o.value o.published.length).length maxLen.toNat,
          dst k = (o.value o.published.length).getD k 0) := by
  rcases delivered_cases hl with ⟨hret, -⟩ | ⟨seq0, n, k, -, hc, hnk, hsame⟩
  · cases hret
  · have hr := h.reader
    rw [hc] at hr
    obtain ⟨hpass, hn, hk, hcopied⟩ := hr
    refine ⟨hpass.begun, fun hlap => ?_⟩
    -- the number is the one of the pass: no write is under way, and none was published
    have hnum := h.number
    have hnum0 := hpass.number
    have hle := hpass.loaded
    rw [hsame, hnum] at hnum0
    have hidle : w.writing = false := by
      cases hw : w.writing with
      | false => rfl
      | true =>
        rw [hw, Bool.toNat_true] at hnum0
        omega
    rw [hidle, Bool.toNat_false] at hnum0
    have heq : o.loaded = o.published.length := by omega
    have hne : o.published ≠ [] := by
      intro hnil
      refine hpass.nonzero (UInt32.toNat_inj.mp ?_)
      rw [hpass.number, heq, hnil]
      rfl
    obtain ⟨hlen, hbytes⟩ := hcopied heq hidle
    exact ⟨hne, heq, fun j hj => hbytes j (by omega)⟩

theorem never_spec {w : World} {o : Seen} (h : Inv w o) {maxLen : UInt8} {dst : ℕ → UInt8}
    (hl : w.stepReader.2 = .delivered maxLen false dst) : 2 ^ 31 ∣ o.published.length := by
  rcases delivered_cases hl with ⟨-, -, h0⟩ | ⟨seq0, n, k, hret, -⟩
  · have hzero : w.slot.seq.toNat = 0 := by rw [h0]; rfl
    have hidle := h.idle_of_even (by rw [hzero])
    have hnum := h.number
    rw [hzero, hidle, Bool.toNat_false] at hnum
    omega
  · cases hret

theorem within_spec {w : World} {o : Seen} (h : Inv w o) {maxLen : UInt8} {ret : Bool}
    {dst : ℕ → UInt8} (hl : w.stepReader.2 = .delivered maxLen ret dst) :
    ∀ k, maxLen.toNat ≤ k → dst k = o.given k := by
  have hr := h.reader
  rcases delivered_cases hl with ⟨-, hc, -⟩ | ⟨seq0, n, k, -, hc, -⟩
  · rw [hc] at hr
    exact hr.2
  · rw [hc] at hr
    exact hr.1.outside

theorem retry_spec {w : World} {o : Seen} (h : Inv w o) (hl : w.stepReader.2 = .again) :
    w.writing = true ∨ o.loaded < o.published.length := by
  have hr := h.reader
  cases hc : w.reader with
  | idle =>
    simp only [World.stepReader, hc] at hl
    cases hl
  | size maxLen dst seq0 =>
    simp only [World.stepReader, hc] at hl
    cases hl
  | load maxLen dst =>
    rcases reader_load hc with ⟨-, heq⟩ | ⟨hodd, -⟩ | heq
    · rw [heq] at hl
      cases hl
    · exact .inl (h.writing_of_odd hodd)
    · rw [heq] at hl
      cases hl
  | copy maxLen dst seq0 n k =>
    rcases reader_copy hc with heq | ⟨-, -, heq⟩ | ⟨hne, -⟩
    · rw [heq] at hl
      cases hl
    · rw [heq] at hl
      cases hl
    · rw [hc] at hr
      have hpass := hr.1
      by_contra hcon
      push Not at hcon
      obtain ⟨hidle, hge⟩ := hcon
      have hnum := h.number
      rw [Bool.eq_false_iff.mpr hidle, Bool.toNat_false] at hnum
      refine hne (UInt32.toNat_inj.mp ?_)
      rw [hpass.number, hnum, Nat.le_antisymm hpass.loaded hge, Nat.add_zero]

/-- Only the reader's accesses repeat a pass and deliver. -/
theorem reader_of_label {w : World} {e : Event}
    (h : (w.step e).2 = .again ∨ ∃ maxLen ret dst, (w.step e).2 = .delivered maxLen ret dst) :
    e = .reader := by
  cases e with
  | reader => rfl
  | writer =>
    simp only [World.step, World.stepWriter] at h
    cases hc : w.writer with
    | copy src seq k => by_cases hmore : k < src.length <;> simp [hc, hmore] at h
    | _ => simp [hc] at h
  | write src =>
    simp only [World.step] at h
    cases hc : w.writer with
    | idle => by_cases hlong : iocMax < src.length <;> simp [hc, hlong] at h
    | _ => simp [hc] at h
  | read maxLen dst =>
    simp only [World.step] at h
    cases hc : w.reader <;> simp [hc] at h

/-- **No read of the sequence lock is torn**, in every interleaving of the writer's accesses and the
reader's. -/
theorem seqlock_whole (es : List Event) :
    Trace.Along Whole (Trace.history World.step World.start es) := by
  refine (Trace.run_along (I := fun w hist => Inv w (seen hist)) (C := fun _ _ => True)
    inv_start ?_ es (fun _ _ _ _ => trivial)).2
  intro es e hinv _
  have hreader := fun h => reader_of_label (w := Trace.final World.step World.start es) (e := e) h
  rw [seen_snoc]
  refine ⟨inv_step hinv e, fun maxLen dst hl => ?_, fun maxLen dst hl => ?_, fun maxLen dst hl => ?_,
    fun maxLen ret dst hl => ?_, fun hl => ?_⟩
  · obtain rfl := hreader (.inr ⟨maxLen, true, dst, hl⟩)
    exact (deliver_spec hinv hl).2
  · obtain rfl := hreader (.inr ⟨maxLen, true, dst, hl⟩)
    exact (deliver_spec hinv hl).1
  · obtain rfl := hreader (.inr ⟨maxLen, false, dst, hl⟩)
    exact never_spec hinv hl
  · obtain rfl := hreader (.inr ⟨maxLen, ret, dst, hl⟩)
    exact within_spec hinv hl
  · obtain rfl := hreader (.inl hl)
    exact retry_spec hinv hl

end BloblyEmb.Osal.Seqlock
