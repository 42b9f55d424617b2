import BloblyEmb.Lib.Ring
import BloblyEmb.Lib.Trace
import Mathlib.Data.Int.Basic
import Mathlib.Data.List.Nodup
import Mathlib.Data.List.Perm.Basic

/-!
# The pool of bulk buffers

Whole payloads between a producer and a consumer (`boards/common/bulk.h`). A reference travels, the
payload stays: two rings carry buffer indices, the ready ring to the consumer and the free ring
back. Each side writes fields of its own, and each load and store of a word is a step of its own, in
any order.
-/
namespace BloblyEmb.Bulk

/-! ## The count of buffers -/

def nbufMin : ℤ := 1
def nbufMax : ℤ := 1024

/-- What `validate_bulk` says about `nbuf`. -/
def validateNbuf (bname : String) (v : ℤ) : List String :=
  let least := nbufMin - 1
  if v < nbufMin then [s!"bulk pool \"{bname}\" nbuf {v} must be > {least}"]
  else if nbufMax < v then [s!"bulk pool \"{bname}\" nbuf {v} exceeds the {nbufMax} limit"]
  else []

/-- A pool that the validator accepts. -/
structure Config where
  name : String
  nbuf : UInt32
  accepted : validateNbuf name nbuf.toNat = []

theorem validateNbuf_eq_nil_iff (bname : String) (v : ℤ) :
    validateNbuf bname v = [] ↔ 1 ≤ v ∧ v ≤ 1024 := by
  unfold validateNbuf
  by_cases hleast : v < nbufMin
  · rw [if_pos hleast]
    simp only [nbufMin] at hleast
    constructor
    · exact fun h => absurd h (List.cons_ne_nil _ _)
    · omega
  · rw [if_neg hleast]
    simp only [nbufMin] at hleast
    by_cases hmost : nbufMax < v
    · rw [if_pos hmost]
      simp only [nbufMax] at hmost
      constructor
      · exact fun h => absurd h (List.cons_ne_nil _ _)
      · omega
    · rw [if_neg hmost]
      simp only [nbufMax] at hmost
      exact iff_of_true rfl (by omega)

theorem Config.bounds (c : Config) : 1 ≤ c.nbuf.toNat ∧ c.nbuf.toNat ≤ 1024 := by
  have h := (validateNbuf_eq_nil_iff c.name c.nbuf.toNat).mp c.accepted
  omega

/-! ## The pool -/

structure Pool where
  nbuf : UInt32
  rHead : UInt32
  fTail : UInt32
  overflows : UInt32
  rTail : UInt32
  fHead : UInt32
  freeRing : UInt32 → UInt32
  readyRing : UInt32 → UInt32
  lenArr : UInt32 → UInt32

namespace Pool

/-- `bulk_init`, over whatever the memory holds. -/
def init (b : Pool) (nbuf : UInt32) : Pool :=
  { b with
    nbuf := nbuf
    overflows := 0
    rHead := 0
    rTail := 0
    fTail := 0
    freeRing := fun i => if i < nbuf then i else b.freeRing i
    fHead := nbuf }

/-- The buffers in the free ring. -/
def free (b : Pool) : List UInt32 := Ring.entries b.freeRing b.nbuf b.fTail b.fHead

/-- The buffers in the ready ring. -/
def readyIdx (b : Pool) : List UInt32 := Ring.entries b.readyRing b.nbuf b.rTail b.rHead

/-- And each with its length. -/
def ready (b : Pool) : List (UInt32 × UInt32) := b.readyIdx.map fun idx => (idx, b.lenArr idx)

end Pool

/-- Where the producer is: what it still has to do. -/
inductive Producer where
  | idle
  | loan
  | loanHead (t : UInt32)
  | loanEntry (t : UInt32)
  | loanStore (t idx : UInt32)
  | overflow
  | overflowStore (ov : UInt32)
  | len (idx len : UInt32)
  | readyHead (idx len : UInt32)
  | readyEntry (idx len h : UInt32)
  | readyStore (idx len h : UInt32)

/-- And the consumer. -/
inductive Consumer where
  | idle
  | take
  | takeHead (t : UInt32)
  | takeEntry (t : UInt32)
  | takeLen (t idx : UInt32)
  | takeStore (t idx len : UInt32)
  | freeHead (idx : UInt32)
  | freeEntry (idx h : UInt32)
  | freeStore (idx h : UInt32)

/-- The pool and its two sides, with the buffers that each has in hand. -/
structure World where
  pool : Pool
  producer : Producer := .idle
  consumer : Consumer := .idle
  loaned : List UInt32 := []
  held : List UInt32 := []

inductive Event where
  | loan
  | publish (idx len : UInt32)
  /-- One access of the call that the producer is in. -/
  | producer
  | take
  | release (idx : UInt32)
  | consumer
deriving DecidableEq

/-- What a call returned. -/
inductive Label where
  | quiet
  | exhausted
  | loaned (idx : UInt32)
  | published (idx len : UInt32)
  | empty
  | taken (idx len : UInt32)
  | released (idx : UInt32)
deriving DecidableEq

namespace World

def stepProducer (w : World) : World × Label :=
  match w.producer with
  | .idle => (w, .quiet)
  | .loan => ({ w with producer := .loanHead w.pool.fTail }, .quiet)
  | .loanHead t =>
    if t = w.pool.fHead then ({ w with producer := .overflow }, .quiet)
    else ({ w with producer := .loanEntry t }, .quiet)
  | .overflow => ({ w with producer := .overflowStore w.pool.overflows }, .quiet)
  | .overflowStore ov =>
    ({ w with pool := { w.pool with overflows := ov + 1 }, producer := .idle }, .exhausted)
  | .loanEntry t =>
    ({ w with producer := .loanStore t (w.pool.freeRing (t % w.pool.nbuf)) }, .quiet)
  | .loanStore t idx =>
    ({ w with
        pool := { w.pool with fTail := t + 1 }
        producer := .idle
        loaned := w.loaned ++ [idx] }, .loaned idx)
  | .len idx len =>
    ({ w with
        pool := { w.pool with lenArr := Function.update w.pool.lenArr idx len }
        producer := .readyHead idx len }, .quiet)
  | .readyHead idx len => ({ w with producer := .readyEntry idx len w.pool.rHead }, .quiet)
  | .readyEntry idx len h =>
    ({ w with
        pool := { w.pool with
          readyRing := Function.update w.pool.readyRing (h % w.pool.nbuf) idx }
        producer := .readyStore idx len h }, .quiet)
  | .readyStore idx len h =>
    ({ w with
        pool := { w.pool with rHead := h + 1 }
        producer := .idle
        loaned := w.loaned.erase idx }, .published idx len)

def stepConsumer (w : World) : World × Label :=
  match w.consumer with
  | .idle => (w, .quiet)
  | .take => ({ w with consumer := .takeHead w.pool.rTail }, .quiet)
  | .takeHead t =>
    if t = w.pool.rHead then ({ w with consumer := .idle }, .empty)
    else ({ w with consumer := .takeEntry t }, .quiet)
  | .takeEntry t =>
    ({ w with consumer := .takeLen t (w.pool.readyRing (t % w.pool.nbuf)) }, .quiet)
  | .takeLen t idx => ({ w with consumer := .takeStore t idx (w.pool.lenArr idx) }, .quiet)
  | .takeStore t idx len =>
    ({ w with
        pool := { w.pool with rTail := t + 1 }
        consumer := .idle
        held := w.held ++ [idx] }, .taken idx len)
  | .freeHead idx => ({ w with consumer := .freeEntry idx w.pool.fHead }, .quiet)
  | .freeEntry idx h =>
    ({ w with
        pool := { w.pool with
          freeRing := Function.update w.pool.freeRing (h % w.pool.nbuf) idx }
        consumer := .freeStore idx h }, .quiet)
  | .freeStore idx h =>
    ({ w with
        pool := { w.pool with fHead := h + 1 }
        consumer := .idle
        held := w.held.erase idx }, .released idx)

/-- A side starts a call when it is in none, and publishes and releases what it has in hand. -/
def step (w : World) : Event → World × Label
  | .loan =>
    match w.producer with
    | .idle => ({ w with producer := .loan }, .quiet)
    | _ => (w, .quiet)
  | .publish idx len =>
    match w.producer with
    | .idle => if idx ∈ w.loaned then ({ w with producer := .len idx len }, .quiet) else (w, .quiet)
    | _ => (w, .quiet)
  | .producer => w.stepProducer
  | .take =>
    match w.consumer with
    | .idle => ({ w with consumer := .take }, .quiet)
    | _ => (w, .quiet)
  | .release idx =>
    match w.consumer with
    | .idle => if idx ∈ w.held then ({ w with consumer := .freeHead idx }, .quiet) else (w, .quiet)
    | _ => (w, .quiet)
  | .consumer => w.stepConsumer

/-- All places where a buffer can be. -/
def places (w : World) : List UInt32 := w.pool.free ++ w.loaned ++ w.pool.readyIdx ++ w.held

end World

/-! ## What a run shows -/

abbrev Step := Trace.Entry World Event Label

/-- What was published, with its lengths, in order. -/
def published (hist : List Step) : List (UInt32 × UInt32) :=
  hist.foldl (fun l x => match x.label with | .published idx len => l ++ [(idx, len)] | _ => l) []

/-- What the consumer took. -/
def taken (hist : List Step) : List (UInt32 × UInt32) :=
  hist.foldl (fun l x => match x.label with | .taken idx len => l ++ [(idx, len)] | _ => l) []

/-- The buffers of the pool. -/
def buffers (n : UInt32) : List UInt32 := (List.range n.toNat).map UInt32.ofNat

/-- What holds after a step. -/
structure Owned (n : UInt32) (hist : List Step) (x : Step) : Prop where
  /-- Each buffer is in exactly one place. -/
  place : x.after.places.Perm (buffers n)
  /-- What was taken is what was published, in its order and each with its length, up to what is
  still in the ready ring. -/
  order : published (hist ++ [x]) = taken (hist ++ [x]) ++ x.after.pool.ready
  /-- No buffer is loaned that the consumer holds. -/
  apart : ∀ idx, x.label = .loaned idx → idx ∉ x.after.held

/-- No entry is stored where another lies that has not been read. -/
structure Clear (x : Step) : Prop where
  ready : x.event = .producer → ∀ idx len h, x.before.producer = .readyEntry idx len h →
    Ring.Clear x.before.pool.nbuf x.before.pool.rTail h
  free : x.event = .consumer → ∀ idx h, x.before.consumer = .freeEntry idx h →
    Ring.Clear x.before.pool.nbuf x.before.pool.fTail h

end BloblyEmb.Bulk
