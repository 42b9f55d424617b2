import BloblyEmb.Lib.Trace
import Mathlib.Logic.Function.Iterate
import Mathlib.Tactic.Common

/-!
# The cross-core channel

One writer on one core, one reader on another, and plain loads and stores of words between them
(`boards/common/xioc.h`): the pair channel, and the wide one, which its writer may initialise again
with another width. Every load and store of a shared word is one step, in program order.

Each word remembers what stored it, and each publication has its place in the order of all of them:
neither is in the code.
-/
namespace BloblyEmb.Xioc

def slots : ℕ := 4

def maxWords : ℕ := 16

inductive Kind where
  | pair
  | wide
deriving DecidableEq

/-- The words from one slot to the next: the pair pads its slots. -/
def Kind.stride : Kind → ℕ → ℕ
  | .pair, _ => 4
  | .wide, words => 1 + words

/-- The words of a value. -/
def Kind.width : Kind → ℕ → ℕ
  | .pair, _ => 2
  | .wide, words => words

/-- Where the slot of a publish begins, with its sequence word. -/
def Kind.slot (k : Kind) (n : UInt32) (words : ℕ) : ℕ := n.toNat % slots * k.stride words

/-- The number of the next publish: 0 is of no publish. -/
def nextSeq (n : UInt32) : UInt32 := if n + 1 = 0 then 1 else n + 1

structure Publication where
  id : ℕ
  /-- How many there were when the channel was last initialised, and with which seed. -/
  start : ℕ
  seed : UInt32
  num : UInt32
  width : ℕ
  value : List UInt32
deriving DecidableEq

/-- What stored a word: a sequence number, or a word of a value. -/
inductive Mark where
  | blank
  | seq (p : Publication)
  | data
deriving DecidableEq

structure Word where
  val : UInt32
  mark : Mark

def Word.zero : Word := ⟨0, .blank⟩

/-- Where the writer is: its next store. -/
inductive Writer where
  | idle
  | retract (words : ℕ) (seed : UInt32)
  | clear (words : ℕ) (seed : UInt32) (i : ℕ)
  | geometry (words : ℕ) (seed : UInt32)
  | invalidate (p : Publication)
  | payload (p : Publication) (i : ℕ)
  | validate (p : Publication)
  | publish (p : Publication)

/-- Where the reader is: its next load. What it found in `latest`, the width that it found, and what
it has copied. -/
inductive Reader where
  | idle
  | latest (dstWords : ℕ)
  | words (dstWords : ℕ) (n : UInt32) (m : Mark)
  | copy (dstWords : ℕ) (n : UInt32) (m : Mark) (w : ℕ) (tmp : List UInt32)
  | recheck (dstWords : ℕ) (n : UInt32) (m : Mark) (w : ℕ) (tmp : List UInt32)

structure World where
  cell : ℕ → Word
  latest : Word := .zero
  words : ℕ
  wseq : UInt32
  writer : Writer := .idle
  reader : Reader := .idle
  rdSeq : UInt32 := 0
  dst : List UInt32 := []
  count : ℕ := 0
  start : ℕ := 0
  seed : UInt32

inductive Event where
  /-- The calls, and the next access of a thread. -/
  | init (words : ℕ) (seed : UInt32)
  | write (src : List UInt32)
  | read (dstWords : ℕ)
  | writer
  | reader

inductive Label where
  | quiet
  | begun (p : Publication)
  | published (p : Publication)
  /-- A read returns 0, or 1. -/
  | refused
  | delivered (dstWords : ℕ) (m : Mark) (value : List UInt32)
deriving DecidableEq

/-- The reader copies, and then looks at the sequence word again. -/
def Reader.copying (dstWords : ℕ) (n : UInt32) (m : Mark) (w : ℕ) (tmp : List UInt32) : Reader :=
  if tmp.length < w then .copy dstWords n m w tmp else .recheck dstWords n m w tmp

/-- The writer stores the words of its value, and then the sequence word. -/
def Writer.storing (p : Publication) (i : ℕ) : Writer :=
  if i < p.width then .payload p i else .validate p

namespace World

/-- An initialised channel, in memory of any content. -/
def init (k : Kind) (mem : ℕ → UInt32) (words : ℕ) (seed : UInt32) : World where
  cell i := if i < slots * k.stride (k.width words) then .zero else ⟨mem i, .data⟩
  words := k.width words
  wseq := seed
  seed := seed

def store (w : World) (at' : ℕ) (v : Word) : World := { w with cell := Function.update w.cell at' v }

def stepWriter (k : Kind) (w : World) : World × Label :=
  match w.writer with
  | .idle => (w, .quiet)
  | .retract words seed => ({ w with latest := .zero, writer := .clear words seed 0 }, .quiet)
  | .clear words seed i =>
    ({ w.store i .zero with
        writer := if i + 1 < slots * k.stride words then .clear words seed (i + 1)
          else .geometry words seed }, .quiet)
  | .geometry words seed =>
    ({ w with wseq := seed, words := words, writer := .idle, start := w.count, seed := seed },
      .quiet)
  | .invalidate p =>
    ({ w.store (k.slot p.num p.width) .zero with writer := .storing p 0 }, .quiet)
  | .payload p i =>
    ({ w.store (k.slot p.num p.width + 1 + i) ⟨p.value.getD i 0, .data⟩ with
        writer := .storing p (i + 1) }, .quiet)
  | .validate p =>
    ({ w.store (k.slot p.num p.width) ⟨p.num, .seq p⟩ with writer := .publish p }, .quiet)
  | .publish p => ({ w with latest := ⟨p.num, .seq p⟩, writer := .idle }, .published p)

def stepReader (k : Kind) (w : World) : World × Label :=
  match w.reader with
  | .idle => (w, .quiet)
  | .latest dstWords =>
    if w.latest.val = 0 ∨ w.latest.val = w.rdSeq then ({ w with reader := .idle }, .refused)
    else
      match k with
      | .pair => ({ w with reader := .copying 2 w.latest.val w.latest.mark 2 [] }, .quiet)
      | .wide => ({ w with reader := .words dstWords w.latest.val w.latest.mark }, .quiet)
  | .words dstWords n m =>
    if w.words ≠ dstWords ∨ maxWords < w.words then ({ w with reader := .idle }, .refused)
    else ({ w with reader := .copying dstWords n m w.words [] }, .quiet)
  | .copy dstWords n m v tmp =>
    ({ w with
        reader := .copying dstWords n m v (tmp ++ [(w.cell (k.slot n v + 1 + tmp.length)).val]) },
      .quiet)
  | .recheck dstWords n m v tmp =>
    if (w.cell (k.slot n v)).val ≠ n then ({ w with reader := .idle }, .refused)
    else ({ w with reader := .idle, dst := tmp, rdSeq := n }, .delivered dstWords m tmp)

/-- The writer takes the number of the next publish. -/
def beginWrite (w : World) (src : List UInt32) : World × Label :=
  let p : Publication := {
    id := w.count, start := w.start, seed := w.seed, num := nextSeq w.wseq, width := w.words,
    value := (List.range w.words).map fun i => src.getD i 0 }
  ({ w with wseq := p.num, count := w.count + 1, writer := .invalidate p }, .begun p)

def step (k : Kind) (w : World) : Event → World × Label
  | .init words seed =>
    match k, w.writer with
    | .wide, .idle => ({ w with writer := .retract words seed }, .quiet)
    | _, _ => (w, .quiet)
  | .write src =>
    match w.writer with
    | .idle => w.beginWrite src
    | _ => (w, .quiet)
  | .read dstWords =>
    match w.reader with
    | .idle => ({ w with reader := .latest dstWords }, .quiet)
    | _ => (w, .quiet)
  | .writer => w.stepWriter k
  | .reader => w.stepReader k

end World

end BloblyEmb.Xioc
