import BloblyEmb.Dump.Buffer

/-!
# The blocks of a dump

A window goes out in blocks of what fits a message. Each says from where its records count, so that
it can be decoded without the others.
-/
namespace BloblyEmb.Dump

/-! ## What a decoder makes of records -/

structure Stamped where
  record : Record
  start : UInt32
  skew : Option Record

/-- The records with their starts on one timeline: an epoch moves the base. -/
def timeline (base : UInt32) (skew : Option Record) : List Record → List Stamped
  | [] => []
  | r :: rs =>
    if r.isEpoch then timeline r.epochBase skew rs
    else if r.isCoreOffset then timeline base (some r) rs
    else ⟨r, base + r.startUs, skew⟩ :: timeline base skew rs

def decodeBlock : List UInt8 → List Record
  | a :: b :: c :: d :: e :: f :: g :: h :: bs =>
    decodeRecord [a, b, c, d, e, f, g, h] :: decodeBlock bs
  | _ => []

theorem decodeBlock_encode (rs : List Record) : decodeBlock (rs.flatMap encodeRecord) = rs := by
  induction rs with
  | nil => rfl
  | cons r rs ih =>
    have hcons : (r :: rs).flatMap encodeRecord = encodeRecord r ++ rs.flatMap encodeRecord := by
      simp
    have hstep : ∀ bs, decodeBlock (encodeRecord r ++ bs) =
        decodeRecord (encodeRecord r) :: decodeBlock bs := fun bs => rfl
    rw [hcons, hstep, decode_encode, ih]

namespace TraceBuffer

theorem replay_append (xs ys : List Record) (base : UInt32) (skew : Option Record) :
    replay base skew (xs ++ ys) = replay (replay base skew xs).1 (replay base skew xs).2 ys := by
  induction xs generalizing base skew with
  | nil => rfl
  | cons x xs ih => exact ih _ _

theorem timeline_append (xs ys : List Record) (base : UInt32) (skew : Option Record) :
    timeline base skew (xs ++ ys) = timeline base skew xs ++
      timeline (replay base skew xs).1 (replay base skew xs).2 ys := by
  induction xs generalizing base skew with
  | nil => rfl
  | cons x xs ih =>
    simp only [List.cons_append, timeline, replay]
    by_cases he : x.isEpoch = true
    · simp [he, isCoreOffset_of_isEpoch he, ih]
    · by_cases ho : x.isCoreOffset = true
      · simp [he, ho, ih]
      · simp [he, ho, ih]

/-- An offset that holds at a record is one of those before it. -/
theorem replay_skew {rs : List Record} {base : UInt32} {s : Record}
    (h : (replay base none rs).2 = some s) : s ∈ rs ∧ s.isCoreOffset = true := by
  have hall : ∀ (rs : List Record) (base : UInt32) (skew : Option Record),
      (replay base skew rs).2 = some s → skew = some s ∨ (s ∈ rs ∧ s.isCoreOffset = true) := by
    intro rs
    induction rs with
    | nil => exact fun base skew h => .inl h
    | cons r rs ih =>
      intro base skew h
      rcases ih _ _ h with hr | ⟨hmem, hs⟩
      · by_cases hoff : r.isCoreOffset = true
        · rw [if_pos hoff, Option.some.injEq] at hr
          subst hr
          exact .inr ⟨List.mem_cons_self, hoff⟩
        · rw [if_neg hoff] at hr
          exact .inl hr
      · exact .inr ⟨List.mem_cons_of_mem _ hmem, hs⟩
  exact (hall rs base none h).resolve_left (by simp)

/-! ## One block -/

variable {t : TraceBuffer} {outCap start : ℕ} {core : UInt8}

theorem drop_window (t : TraceBuffer) (start : ℕ) :
    t.window.drop start = (List.range (t.ring.used - start)).map fun i => t.recordAt (start + i) := by
  apply List.ext_getElem
  · simp [length_window]
  · intro i hi hi'
    simp [window]

theorem take_window (t : TraceBuffer) (h : start ≤ t.ring.used) :
    t.window.take start = (List.range start).map t.recordAt := by
  apply List.ext_getElem
  · simp [length_window, h]
  · intro i hi hi'
    simp [window]

theorem fill_eq (t : TraceBuffer) (outCap : ℕ) (k i n : ℕ) :
    t.fill outCap k i n =
      ((List.range k).map fun j => t.recordAt (i + j)).take ((outCap - n) / 8) := by
  induction k generalizing i n with
  | zero => simp [fill]
  | succ k ih =>
    rw [fill, ih, List.range_succ_eq_map, List.map_cons, List.map_map]
    by_cases hfull : outCap < n + 8
    · rw [if_pos hfull, show (outCap - n) / 8 = 0 by omega, List.take_zero]
    · rw [if_neg hfull, show (outCap - n) / 8 = (outCap - (n + 8)) / 8 + 1 by omega,
        List.take_succ_cons]
      have hfun : ((fun j => t.recordAt (i + j)) ∘ Nat.succ) = fun j => t.recordAt (i + 1 + j) := by
        funext j
        simp only [Function.comp_apply]
        congr 1
        omega
      rw [hfun]
      rfl

/-- The least capacity: a header, an epoch and a record, and an offset where there is one. -/
def minimum (t : TraceBuffer) : ℕ := if t.window.any Record.isCoreOffset then 32 else 24

/-- The base and the offset that hold at a record of the window. -/
def state (t : TraceBuffer) (start : ℕ) : UInt32 × Option Record :=
  replay t.origin none (t.window.take start)

/-- A block of these records of the window: a header with their number and whether more blocks follow,
what holds at the first, and the records. -/
def IsBlock (t : TraceBuffer) (core : UInt8) (block : List UInt8) (start : ℕ)
    (part : List Record) (more : Bool) : Prop :=
  decodeBlock block =
    newBlockHeader core (UInt32.ofNat ((t.state start).2.toList.length + 1 + part.length)) more ::
      newEpoch (t.state start).1 :: ((t.state start).2.toList ++ part)

/-- How many records a block holds. -/
def room (t : TraceBuffer) (outCap start : ℕ) : ℕ :=
  (outCap - (16 + 8 * (t.state start).2.toList.length)) / 8

theorem room_pos (start : ℕ) (hcap : t.minimum ≤ outCap) :
    0 < t.room outCap start := by
  simp only [room]
  cases hskew : (t.state start).2 with
  | none =>
    have hmin : 24 ≤ t.minimum := by
      simp only [minimum]
      split <;> omega
    simp only [Option.toList_none, List.length_nil]
    omega
  | some s =>
    obtain ⟨hmem, hoff⟩ := replay_skew hskew
    have hmin : t.minimum = 32 := by
      rw [minimum, if_pos (List.any_eq_true.mpr ⟨s, List.mem_of_mem_take hmem, hoff⟩)]
    simp only [Option.toList_some, List.length_singleton]
    omega

theorem packChunk_spec (t : TraceBuffer) (core : UInt8) (hstart : start < t.ring.used)
    (hcap : t.minimum ≤ outCap) :
    ∃ block, t.packChunk outCap core start =
        (block, start + ((t.window.drop start).take (t.room outCap start)).length,
          decide (start + ((t.window.drop start).take (t.room outCap start)).length <
            t.ring.used)) ∧
      block ≠ [] ∧ t.IsBlock core block start ((t.window.drop start).take (t.room outCap start))
        (decide (start + ((t.window.drop start).take (t.room outCap start)).length <
          t.ring.used)) := by
  have hstate : replay t.origin none ((List.range start).map t.recordAt) = t.state start := by
    rw [state, take_window t (Nat.le_of_lt hstart)]
  have hany : ((List.range t.ring.used).any fun i => (t.recordAt i).isCoreOffset) =
      t.window.any Record.isCoreOffset := by
    simp [window, List.any_map, Function.comp_def]
  have hfits : ¬outCap < (if ((List.range t.ring.used).any fun i =>
      (t.recordAt i).isCoreOffset) = true then 32 else 24) := by
    rw [hany]
    exact Nat.not_lt.mpr hcap
  have hfill : t.fill outCap (t.ring.used - start) start
      (8 + 8 * (newEpoch (t.state start).1 :: (t.state start).2.toList).length) =
        (t.window.drop start).take (t.room outCap start) := by
    rw [fill_eq, drop_window, room, List.length_cons]
    congr 2
    omega
  simp only [packChunk, if_neg (Nat.not_le.mpr hstart), hstate, if_neg hfits, hfill]
  refine ⟨_, rfl, ?_, ?_⟩
  · simp [encodeRecord]
  · rw [IsBlock, decodeBlock_encode]
    simp only [List.length_cons, List.cons_append]

/-- A block decoded by itself is a piece of the timeline. -/
theorem IsBlock.timeline_eq {block : List UInt8} {part : List Record} {more : Bool}
    (h : t.IsBlock core block start part more) :
    timeline 0 none (decodeBlock block).tail = timeline (t.state start).1 (t.state start).2 part := by
  rw [IsBlock] at h
  rw [h, List.tail_cons, timeline, if_pos (isEpoch_newEpoch _), epochBase_eq]
  simp only [newEpoch]
  cases hskew : (t.state start).2 with
  | none => simp
  | some s =>
    have hoff := (replay_skew hskew).2
    have hepoch : s.isEpoch = false := by
      by_contra h
      rw [Bool.not_eq_false] at h
      simp [isCoreOffset_of_isEpoch h] at hoff
    simp [timeline, hoff, hepoch]

/-! ## A dump -/

/-- Blocks of successive parts of the window, from a record on. -/
inductive Blocks (t : TraceBuffer) (core : UInt8) : ℕ → List (List UInt8) → List Record → Prop
  | nil (start : ℕ) : Blocks t core start [] []
  | cons {start : ℕ} {block : List UInt8} {part : List Record} {blocks : List (List UInt8)}
      {rest : List Record} (hblock : t.IsBlock core block start part !blocks.isEmpty)
      (hpart : part ≠ [])
      (hblocks : Blocks t core (start + part.length) blocks rest) :
      Blocks t core start (block :: blocks) (part ++ rest)

theorem Blocks.not_empty {blocks : List (List UInt8)} {rs : List Record}
    (h : Blocks t core start blocks rs) (hrs : rs ≠ []) : (!blocks.isEmpty) = true := by
  cases h with
  | nil => exact absurd rfl hrs
  | cons hblock hpart hblocks => rfl

theorem dump_spec (t : TraceBuffer) (core : UInt8) (hcap : t.minimum ≤ outCap) (k start : ℕ)
    (hstart : start < t.ring.used) (hk : t.ring.used ≤ start + k) :
    ∃ blocks, t.dump outCap core k start = some blocks ∧
      Blocks t core start blocks (t.window.drop start) := by
  induction k generalizing start with
  | zero => omega
  | succ k ih =>
    obtain ⟨block, hpack, hne, hblock⟩ := t.packChunk_spec core hstart hcap
    have hroom := room_pos start hcap
    have hlen : (t.window.drop start).length = t.ring.used - start := by simp [length_window]
    have hpos : 0 < ((t.window.drop start).take (t.room outCap start)).length := by
      rw [List.length_take]
      omega
    have hsplit := List.take_append_drop (t.room outCap start) (t.window.drop start)
    simp only [dump, hpack, if_neg hne]
    by_cases hmore : start + ((t.window.drop start).take (t.room outCap start)).length < t.ring.used
    · obtain ⟨blocks, hdump, hblocks⟩ := ih _ hmore (by omega)
      refine ⟨block :: blocks, ?_, ?_⟩
      · simp only [hmore, decide_true, if_true, hdump, Option.map_some, List.singleton_append]
      · rw [← hsplit]
        have hdrop : (t.window.drop start).drop (t.room outCap start) = t.window.drop
            (start + ((t.window.drop start).take (t.room outCap start)).length) := by
          rw [List.drop_drop]
          congr 1
          rw [List.length_take] at hmore ⊢
          omega
        have hrest : t.window.drop
            (start + ((t.window.drop start).take (t.room outCap start)).length) ≠ [] := by
          apply List.ne_nil_of_length_pos
          rw [List.length_drop, length_window]
          omega
        rw [hdrop]
        refine .cons ?_ (List.ne_nil_of_length_pos hpos) hblocks
        rw [hblocks.not_empty hrest]
        simpa only [hmore, decide_true] using hblock
    · refine ⟨[block], by simp only [hmore, decide_false, Bool.false_eq_true, if_false], ?_⟩
      have hall : (t.window.drop start).take (t.room outCap start) = t.window.drop start := by
        apply List.take_of_length_le
        rw [List.length_take] at hmore
        omega
      rw [decide_eq_false hmore, hall] at hblock
      rw [hall] at hpos
      have hone : Blocks t core start [block] (t.window.drop start ++ []) :=
        .cons hblock (List.ne_nil_of_length_pos hpos) (.nil _)
      rwa [List.append_nil] at hone

/-- Blocks decoded one by one are the timeline. -/
theorem Blocks.timeline_eq {blocks : List (List UInt8)} {rs : List Record}
    (h : Blocks t core start blocks rs) (hrs : rs = t.window.drop start) :
    blocks.flatMap (fun block => timeline 0 none (decodeBlock block).tail) =
      timeline (t.state start).1 (t.state start).2 rs := by
  induction h with
  | nil start => rfl
  | @cons start block part blocks rest hblock hpart hblocks ih =>
    have hrest : rest = t.window.drop (start + part.length) := by
      rw [← List.drop_drop, ← hrs, List.drop_left]
    have hstate : t.state (start + part.length) =
        replay (t.state start).1 (t.state start).2 part := by
      have htake : t.window.take (start + part.length) = t.window.take start ++ part := by
        rw [List.take_add, ← hrs, List.take_left]
      rw [state, htake, replay_append]
      rfl
    rw [List.flatMap_cons, hblock.timeline_eq, ih hrest, timeline_append, hstate]

end TraceBuffer

end BloblyEmb.Dump
