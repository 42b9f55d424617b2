import Mathlib.Algebra.Order.Ring.Nat
import BloblyEmb.Nvm.Parts

/-!
# The persistence journal

An append journal over two flash sectors (`nvm/journal.v`) behind the hooks of a driver. Offsets and
capacities count records. The table holds the newest value of each block, a chained one as the
place of its parts.
-/
namespace BloblyEmb.Nvm

open Boot (crc32 crc32Update)

scoped instance neZero_two : NeZero 2 := ⟨by decide⟩

def maxBlocks : ℕ := 64

/-- The hooks of the flash driver, over its state. -/
structure FlashOps (φ : Type) where
  read : φ → Fin 2 → ℕ → Option Ptr
  program : φ → Fin 2 → ℕ → Ptr → Bool × φ
  erase : φ → Fin 2 → Bool × φ
  blank : Option (φ → Fin 2 → ℕ → Bool)

structure Entry where
  present : Bool := false
  id : UInt16 := 0
  sector : Fin 2 := 0
  chained : Bool := false
  len : ℕ := 0
  seq : UInt32 := 0
  refOff : ℕ := 0
  data : List UInt8 := []

structure Journal where
  slots : ℕ
  table : Fin maxBlocks → Entry := fun _ => {}
  maxSeq : UInt32 := 0
  active : Fin 2 := 0
  cursor : ℕ := 0
  pendingErase : Option (Fin 2) := none
  partnerClean : Bool := false
  clean : Bool := false
  tailClean : Bool := false
  mounted : Bool := false
  poolOverflow : Bool := false
  compacting : Bool := false

/-- The journal and the state of its flash. -/
structure World (φ : Type) where
  j : Journal
  flash : φ

variable {φ : Type}

/-- The other sector. -/
def other (s : Fin 2) : Fin 2 := 1 - s

/-- The row of a block. -/
def find (t : Fin maxBlocks → Entry) (id : UInt16) : Option (Fin maxBlocks) :=
  (List.finRange maxBlocks).find? fun i => (t i).present && (t i).id == id

/-- The row of a block, or the first free one. -/
def slotFor (t : Fin maxBlocks → Entry) (id : UInt16) : Option (Fin maxBlocks) :=
  match find t id with
  | some i => some i
  | none => (List.finRange maxBlocks).find? fun i => !(t i).present

/-- The records that the newest value of an entry takes. -/
def Entry.records (e : Entry) : ℕ := if e.chained then chainParts e.len else 1

/-- The records of the live set, and the slot of the marker. -/
def liveRecords (t : Fin maxBlocks → Entry) : ℕ :=
  (List.finRange maxBlocks).foldl (fun n i => if (t i).present then n + (t i).records else n) 1

/-- The records whose newest copy lies in sector `s`. -/
def strays (t : Fin maxBlocks → Entry) (s : Fin 2) : ℕ :=
  (List.finRange maxBlocks).foldl
    (fun n i => if (t i).present ∧ (t i).sector = s then n + (t i).records else n) 0

/-! ## Appending -/

/-- `program_slot`: the slot at the cursor is used up whether or not the program succeeds; a reported
failure is read back. -/
def programSlot (ops : FlashOps φ) (w : World φ) (rec' : Ptr) : Bool × World φ :=
  let at' := w.j.cursor
  let r := ops.program w.flash w.j.active at' rec'
  let w' : World φ := { j := { w.j with cursor := at' + 1 }, flash := r.2 }
  if r.1 then (true, w')
  else
    match ops.read r.2 w.j.active at' with
    | none => (false, w')
    | some back => (decide (back.slice 0 32 = rec'.slice 0 32), w')

/-- `ensure_space` where no compaction can follow: in a compaction, and while the partner is not
erased. -/
def roomFor (j : Journal) (n : ℕ) : Bool := j.maxSeq < seqCeiling ∧ j.cursor + n ≤ j.slots

/-- The records of a list of part payloads under one sequence number, stopping at a failure. -/
def programParts (ops : FlashOps φ) (id : UInt16) (seq : UInt32) :
    List (UInt16 × Ptr) → World φ → Bool × World φ
  | [], w => (true, w)
  | (lenf, d) :: l, w =>
    let r := programSlot ops w (encodeRecord id lenf seq d)
    if r.1 then programParts ops id seq l r.2 else (false, r.2)

/-- The next sequence number, used up even on a failure. -/
def World.nextSeq (w : World φ) : World φ := { w with j := { w.j with maxSeq := w.j.maxSeq + 1 } }

/-- The copies of the parts of a chain from its old place, part `k` on. -/
def copyParts (ops : FlashOps φ) (e : Entry) (seq : UInt32) : List ℕ → World φ → Bool × World φ
  | [], w => (true, w)
  | k :: l, w =>
    match ops.read w.flash e.sector (e.refOff + k) with
    | none => (false, w)
    | some old =>
      match parseRecord old with
      | none => (false, w)
      | some (blk, lenf, oseq) =>
        if blk ≠ e.id ∨ oseq ≠ e.seq ∨ ¬isPart lenf ∨ partIdx lenf ≠ k then (false, w)
        else
          let r := programSlot ops w (encodeRecord e.id lenf seq (old.add 8))
          if r.1 then copyParts ops e seq l r.2 else (false, r.2)

/-- `emit_entry`: the value of an entry as fresh records in the active sector. The outcome is its new
place and sequence number. -/
def emitEntry (ops : FlashOps φ) (e : Entry) (w : World φ) : Option (ℕ × UInt32) × World φ :=
  if ¬roomFor w.j (if e.chained then chainParts e.len else 1) then (none, w)
  else
    let start := w.j.cursor
    let w := w.nextSeq
    let seq := w.j.maxSeq
    let r := if e.chained then copyParts ops e seq (List.range (chainParts e.len)) w
      else programSlot ops w (encodeRecord e.id (UInt16.ofNat e.len) seq (Ptr.of e.data))
    (if r.1 then some (start, seq) else none, r.2)

/-- The marker, where there is room. -/
def emitMarker (ops : FlashOps φ) (w : World φ) : Bool × World φ :=
  if ¬roomFor w.j 1 then (false, w)
  else
    let w := w.nextSeq
    programSlot ops w (encodeRecord markerBlock 0 w.j.maxSeq fun _ => 0)

/-- The pass of `rehome_strays` at row `i`. -/
def rehomeRow (ops : FlashOps φ) (s : Fin 2) (r : Bool × World φ) (i : Fin maxBlocks) :
    Bool × World φ :=
  if r.1 ∧ (r.2.j.table i).present ∧ (r.2.j.table i).sector = s then
    match emitEntry ops (r.2.j.table i) r.2 with
    | (none, w) => (false, w)
    | (some (off, seq), w) =>
      let e := w.j.table i
      let e := { e with
        sector := w.j.active
        seq := seq
        refOff := if e.chained then off else e.refOff }
      (true, { w with j := { w.j with table := Function.update w.j.table i e } })
  else r

/-- `rehome_strays`: what lies in sector `s` is copied into the active sector. -/
def rehomeStrays (ops : FlashOps φ) (s : Fin 2) (w : World φ) : Bool × World φ :=
  if s = w.j.active then (false, w)
  else if strays w.j.table s = 0 then
    if w.j.tailClean then emitMarker ops w else (true, w)
  else if w.j.slots - w.j.cursor < strays w.j.table s + (if w.j.tailClean then 1 else 0) then
    (false, w)
  else
    let r := (List.finRange maxBlocks).foldl (rehomeRow ops s) (true, w)
    if ¬r.1 then (false, r.2)
    else if w.j.tailClean then
      let m := emitMarker ops r.2
      (m.1, { m.2 with j := { m.2.j with tailClean := if m.1 then true else m.2.j.tailClean } })
    else (true, r.2)

/-- The copies of the live set: the new places and sequence numbers so far. -/
def copyAll (ops : FlashOps φ) : List (Fin maxBlocks) → (Fin maxBlocks → ℕ × UInt32) → World φ →
    Option (Fin maxBlocks → ℕ × UInt32) × World φ
  | [], news, w => (some news, w)
  | i :: l, news, w =>
    if (w.j.table i).present then
      match emitEntry ops (w.j.table i) w with
      | (none, w) => (none, w)
      | (some new, w) => copyAll ops l (Function.update news i new) w
    else copyAll ops l news w

/-- An entry at the place of its copy. -/
def moved (target : Fin 2) (news : Fin maxBlocks → ℕ × UInt32) (t : Fin maxBlocks → Entry)
    (i : Fin maxBlocks) : Entry :=
  if (t i).present then
    { t i with
      sector := target
      seq := (news i).2
      refOff := if (t i).chained then (news i).1 else (t i).refOff }
  else t i

/-- The journal at the start of a compaction. -/
def World.copying (w : World φ) : World φ :=
  { w with j := { w.j with
    compacting := true
    active := other w.j.active
    cursor := 0
    partnerClean := false } }

/-- The journal after a compaction that failed, the flash being that of `w'`. -/
def World.reverted (w w' : World φ) : World φ :=
  { w' with j := { w'.j with
    compacting := false
    active := w.j.active
    cursor := w.j.cursor
    pendingErase := some (other w.j.active)
    partnerClean := false } }

/-- The journal after a compaction. -/
def World.switched (w w' : World φ) (news : Fin maxBlocks → ℕ × UInt32) : World φ :=
  { w' with j := { w'.j with
    compacting := false
    table := moved (other w.j.active) news w'.j.table
    pendingErase := some w.j.active } }

/-- The copying half of `compact`, into an erased partner: the live set, and the marker if the tail
was clean. -/
def compactInto (ops : FlashOps φ) (w : World φ) : Bool × World φ :=
  match copyAll ops (List.finRange maxBlocks) (fun _ => (0, 0)) w.copying with
  | (none, w') => (false, w.reverted w')
  | (some news, w') =>
    if w.j.tailClean then
      match emitMarker ops w' with
      | (true, w'') => (true, w.switched w'' news)
      | (false, w'') => (false, w.reverted w'')
    else (true, w.switched w' news)

def compact (ops : FlashOps φ) (w : World φ) : Bool × World φ :=
  if ¬w.j.mounted ∨ w.j.compacting then (false, w)
  else if w.j.poolOverflow then (false, w)
  else if w.j.slots < liveRecords w.j.table then (false, w)
  else if w.j.partnerClean then compactInto ops w
  else
    let r := rehomeStrays ops (other w.j.active) w
    if ¬r.1 then (false, r.2)
    else
      let e := ops.erase r.2.flash (other w.j.active)
      let w' : World φ := { r.2 with flash := e.2 }
      if e.1 then compactInto ops w' else (false, w')

def ensureSpace (ops : FlashOps φ) (n : ℕ) (w : World φ) : Bool × World φ :=
  if seqCeiling ≤ w.j.maxSeq then (false, w)
  else if w.j.slots < w.j.cursor + n then
    if w.j.compacting then (false, w)
    else if ¬w.j.partnerClean then (false, w)
    else
      let r := compact ops w
      if ¬r.1 then (false, r.2)
      else if r.2.j.slots < r.2.j.cursor + n then (false, r.2)
      else (true, r.2)
  else (true, w)

/-- `dirty_tail_now` -/
def World.dirtied (w : World φ) : World φ := { w with j := { w.j with tailClean := false } }

/-- The payloads of the parts of a value, with their length fields, from part `k` and position `src`. -/
def partRecords (data : List UInt8) (nparts : ℕ) : ℕ → ℕ → ℕ → List (UInt16 × Ptr)
  | 0, _, _ => []
  | n + 1, k, src =>
    let part := appendPart data nparts k src
    (partField k part.1.length, Ptr.of part.1) :: partRecords data nparts n (k + 1) part.2

/-- A new value: `append_plain` and `append_chain`, the table being written after the flash. -/
def append (ops : FlashOps φ) (block : UInt16) (data : List UInt8) (w : World φ) : Bool × World φ :=
  let chained := decide (dataMax < data.length)
  let nparts := if chained then chainParts data.length else 1
  let r := ensureSpace ops nparts w
  if ¬r.1 then (false, r.2)
  else
    match slotFor r.2.j.table block with
    | none => (false, r.2)
    | some i =>
      let start := r.2.j.cursor
      let w := r.2.dirtied.nextSeq
      let seq := w.j.maxSeq
      let p := if chained then programParts ops block seq (partRecords data nparts nparts 0 0) w
        else programSlot ops w (encodeRecord block (UInt16.ofNat data.length) seq (Ptr.of data))
      if ¬p.1 then (false, p.2)
      else
        let old := p.2.j.table i
        let e : Entry :=
          { present := true
            id := block
            sector := p.2.j.active
            chained := chained
            len := data.length
            seq := seq
            refOff := if chained then start else old.refOff
            data := if chained then old.data else data }
        (true, { p.2 with j := { p.2.j with table := Function.update p.2.j.table i e } })

/-- The largest number of records of a live value other than that of row `ei`. -/
def worstOther (t : Fin maxBlocks → Entry) (ei : Option (Fin maxBlocks)) (new : ℕ) : ℕ :=
  (List.finRange maxBlocks).foldl (fun worst i =>
    if (t i).present ∧ some i ≠ ei then
      if worst < (t i).records then (t i).records else worst
    else worst) new

/-- The gate of `put`: the live set that results fits a sector with headroom for its largest value. -/
def headroom (j : Journal) (block : UInt16) (len : ℕ) : Bool :=
  let new := recordsFor len
  let ei := find j.table block
  let old := match ei with
    | some i => (j.table i).records
    | none => 0
  liveRecords j.table - old + new + worstOther j.table ei new ≤ j.slots

def put (ops : FlashOps φ) (block : UInt16) (data : List UInt8) (w : World φ) : Bool × World φ :=
  if ¬w.j.mounted ∨ block = markerBlock ∨ block = idReserved then (false, w)
  else if data.length = 0 ∨ chainDataMax < data.length then (false, w)
  else if ¬headroom w.j block data.length then (false, w)
  else append ops block data w

/-- `get`: the value of a block, cut to the capacity of the buffer. -/
def get (ops : FlashOps φ) (block : UInt16) (cap : ℕ) (w : World φ) : List UInt8 :=
  if ¬w.j.mounted then []
  else
    match find w.j.table block with
    | none => []
    | some i =>
      let e := w.j.table i
      let n := min e.len cap
      if ¬e.chained then e.data.take n
      else (readChain (ops.read w.flash e.sector) e.refOff e.id e.seq (chainParts e.len) n).getD []

/-- `mark_clean` -/
def markClean (ops : FlashOps φ) (w : World φ) : Bool × World φ :=
  if ¬w.j.mounted then (false, w)
  else
    let r := ensureSpace ops 1 w
    if ¬r.1 then (false, r.2)
    else
      let w := r.2.nextSeq
      let m := programSlot ops w (encodeRecord markerBlock 0 w.j.maxSeq fun _ => 0)
      if m.1 then (true, { m.2 with j := { m.2.j with tailClean := true } }) else (false, m.2)

/-- `erase_pending` -/
def erasePending (ops : FlashOps φ) (w : World φ) : Bool × World φ :=
  if ¬w.j.mounted then (false, w)
  else
    match w.j.pendingErase with
    | none => (true, w)
    | some s =>
      if s = w.j.active then (false, w)
      else if w.j.poolOverflow then (false, w)
      else
        let r := rehomeStrays ops s w
        if ¬r.1 then (false, r.2)
        else
          let e := ops.erase r.2.flash s
          let w' : World φ := { r.2 with flash := e.2 }
          if e.1 then (true, { w' with j := { w'.j with partnerClean := true, pendingErase := none } })
          else (false, w')

/-- `prune`: rows whose block is not in `keep` are dropped. -/
def prune (keep : List UInt16) (w : World φ) : World φ :=
  if ¬w.j.mounted then w
  else
    let t : Fin maxBlocks → Entry := fun i =>
      if (w.j.table i).present ∧ (w.j.table i).id ∉ keep then {} else w.j.table i
    { w with j := { w.j with
      table := t
      poolOverflow := w.j.poolOverflow && !(keep.all fun id => (find t id).isSome) } }

end BloblyEmb.Nvm
