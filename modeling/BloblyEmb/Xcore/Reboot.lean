import Mathlib.Algebra.Order.Ring.Nat
import BloblyEmb.Xcore.Gate

/-!
# No read hands over what an earlier boot published

On every interleaving of the two cores, with resets of the owner at any word. All that the reader
finds behind the gate it holds only while the gate of one boot stands open, and a gate that was
closed is never opened again for the same boot: what the second look at the gate lets through is of
the boot that the first look found.
-/
namespace BloblyEmb.Xcore

open Xioc (Kind)

abbrev Entry := Trace.Entry World Event Label

/-- What a read promises when it returns. -/
structure Current (cfg : Config) (x : Entry) : Prop where
  /-- A read that returns 1 is of the owner's layout and width, and leaves one value in the lanes
  that was published since the last begin. -/
  fresh : ∀ seen, x.label = .fresh seen → cfg.readLayout = cfg.layout ∧
    (cfg.off, cfg.words) ∈ cfg.chans ∧ (cfg.off, x.after.sat.dst) ∈ seen ∧
    x.after.sat.dst.length = cfg.words
  default : x.label = .default → x.after.sat.rdSeq = 0 ∧
    x.after.sat.dst = List.replicate cfg.words 0

/-- The bounds on a run. -/
structure Careful (cfg : Config) (x : Entry) : Prop where
  /-- What no boot stored does not match the layout by accident. -/
  garbage : ∀ ack, x.event = .reader → x.before.sat.reader = .nonce ack none → ack ≠ 0 →
    ack ≠ ackOf (x.before.mem.nonce ^^^ cfg.readLayout)
  /-- The magic word does not make one layout look as another. -/
  magic : ∀ ack boot, x.event = .reader → x.before.sat.reader = .nonce ack boot →
    x.before.mem.nonce = cfg.layout ∨ x.before.mem.nonce = cfg.readLayout →
    cfg.readLayout ≠ cfg.layout ^^^ layoutMagic
  /-- No boot stores the word of another that a read has seen, or that its lanes are of. -/
  again : ∀ l b, x.event = .reader → x.before.sat.reader = .gate l →
    x.before.mem.gate = some b → x.before.mem.ack = l.ack → l.boot = some b
  kept : ∀ ack b, x.event = .reader → x.before.sat.reader = .nonce ack (some b) →
    x.before.sat.rdSeq ≠ 0 → x.before.sat.stNonce = x.before.mem.nonce → x.before.sat.stBoot = b
  /-- A read is not lapped by all the numbers there are. -/
  lap : ∀ l n k tmp, x.event = .reader → x.before.sat.reader = .recheck l n k tmp →
    (x.before.mem.chan cfg.off).count < k + 2 ^ 32

/-! ## The reader -/

/-- What a read saw of the gate: it is of a boot, and of the reader's layout while it stands. -/
def Look.Found (cfg : Config) (m : Shared) (l : Look) : Prop :=
  ∃ b, l.boot = some b ∧ m.Past b ∧ l.ack ≠ 0 ∧ (m.gate = some b → cfg.readLayout = cfg.layout)

namespace Sat

/-- The lanes are of the boot that the read found. -/
def Under (s : Sat) (l : Look) : Prop := s.rdSeq ≠ 0 → l.boot = some s.stBoot

def LookedAt (cfg : Config) (m : Shared) (s : Sat) : Reader → Prop
  | .idle => True
  | .nonce ack boot => ∀ b, boot = some b →
    m.Past b ∧ (m.gate = some b → ack = ackOf (m.nonce ^^^ cfg.layout))
  | .latest l | .gate l => l.Found cfg m ∧ s.Under l
  | .words l n _ | .copy l n _ _ | .recheck l n _ _ => l.Found cfg m ∧ s.Under l ∧ n ≠ 0
  | .last _ _ => cfg.readLayout = cfg.layout

structure Looked (cfg : Config) (m : Shared) (s : Sat) : Prop where
  zeros : s.rdSeq = 0 → s.dst = List.replicate cfg.words 0
  past : s.rdSeq ≠ 0 → m.Past s.stBoot
  reader : s.LookedAt cfg m s.reader

/-- What the reader holds of its channel while the gate stands. -/
def HeldAt (cfg : Config) (width : ℕ) (m : Shared) (s : Sat) : Reader → Prop
  | .words l n k => m.gate = l.boot → (m.chan cfg.off).Holding k n []
  | .copy l n k tmp => m.gate = l.boot →
    width = cfg.words ∧ tmp.length < width ∧ (m.chan cfg.off).Holding k n tmp
  | .recheck l n k tmp => m.gate = l.boot →
    width = cfg.words ∧ tmp.length = width ∧ (m.chan cfg.off).Holding k n tmp
  | .last _ seen => s.rdSeq ≠ 0 →
    width = cfg.words ∧ s.dst.length = width ∧ (cfg.off, s.dst) ∈ seen
  | _ => True

structure Held (cfg : Config) (width : ℕ) (m : Shared) (s : Sat) : Prop where
  kept : s.rdSeq ≠ 0 → m.gate = some s.stBoot →
    width = cfg.words ∧ s.dst.length = width ∧ (cfg.off, s.dst) ∈ m.done
  reader : s.HeldAt cfg width m s.reader

end Sat

section Reader

variable {cfg : Config} {width : ℕ} {m m' : Shared} {s : Sat}

theorem Look.Found.keeps {l : Look} (h : l.Found cfg m) (hk : m.Keeps m') : l.Found cfg m' := by
  obtain ⟨b, hb, hpast, hack, hlayout⟩ := h
  exact ⟨b, hb, hk.past b hpast, hack, fun hgate => hlayout (hk.gate b hpast hgate)⟩

/-- What the owner does leaves what the reader saw of the gate. -/
theorem Sat.Looked.keeps (h : s.Looked cfg m) (hk : m.Keeps m') : s.Looked cfg m' := by
  constructor
  case zeros => exact h.zeros
  case past => exact fun hseq => hk.past _ (h.past hseq)
  case reader =>
    have hreader := h.reader
    cases hr : s.reader with
    | idle => trivial
    | nonce ack boot =>
      rw [hr] at hreader
      intro b hb
      obtain ⟨hpast, hack⟩ := hreader b hb
      refine ⟨hk.past b hpast, ?_⟩
      intro hgate
      rw [hk.nonce b hpast hgate]
      exact hack (hk.gate b hpast hgate)
    | latest l =>
      rw [hr] at hreader
      exact ⟨hreader.1.keeps hk, hreader.2⟩
    | words l n k =>
      rw [hr] at hreader
      exact ⟨hreader.1.keeps hk, hreader.2⟩
    | copy l n k tmp =>
      rw [hr] at hreader
      exact ⟨hreader.1.keeps hk, hreader.2⟩
    | recheck l n k tmp =>
      rw [hr] at hreader
      exact ⟨hreader.1.keeps hk, hreader.2⟩
    | gate l =>
      rw [hr] at hreader
      exact ⟨hreader.1.keeps hk, hreader.2⟩
    | last l seen =>
      rw [hr] at hreader
      exact hreader

/-- Neither what it holds of its channel, while the gate stands. -/
theorem Sat.Held.keeps (h : s.Held cfg width m) (hl : s.Looked cfg m) (hk : m.Keeps m')
    (hmoved : Moved cfg.off m m') : s.Held cfg width m' := by
  -- a gate that the read found and that stands stood before, and its channel moved on
  have hopen : ∀ l : Look, l.Found cfg m → m'.gate = l.boot →
      m.gate = l.boot ∧ (m.chan cfg.off).Moves (m'.chan cfg.off) := by
    rintro l ⟨b, hb, hpast, -, -⟩ hgate
    rw [hb] at hgate ⊢
    exact ⟨hk.gate b hpast hgate, hmoved b hpast hgate⟩
  constructor
  case kept =>
    intro hseq hgate
    have hpast := hl.past hseq
    obtain ⟨hwidth, hlen, hdone⟩ := h.kept hseq (hk.gate _ hpast hgate)
    exact ⟨hwidth, hlen, hk.done _ hpast hgate _ hdone⟩
  case reader =>
    have hreader := h.reader
    have hlook := hl.reader
    cases hr : s.reader with
    | words l n k =>
      rw [hr] at hreader hlook
      intro hgate
      obtain ⟨hbefore, hmoves⟩ := hopen l hlook.1 hgate
      exact (hreader hbefore).moves hmoves
    | copy l n k tmp =>
      rw [hr] at hreader hlook
      intro hgate
      obtain ⟨hbefore, hmoves⟩ := hopen l hlook.1 hgate
      obtain ⟨hwidth, hlt, hholding⟩ := hreader hbefore
      exact ⟨hwidth, hlt, hholding.moves hmoves⟩
    | recheck l n k tmp =>
      rw [hr] at hreader hlook
      intro hgate
      obtain ⟨hbefore, hmoves⟩ := hopen l hlook.1 hgate
      obtain ⟨hwidth, hlen, hholding⟩ := hreader hbefore
      exact ⟨hwidth, hlen, hholding.moves hmoves⟩
    | last l seen =>
      rw [hr] at hreader
      exact hreader
    | _ => trivial

theorem looked_refuse : (s.refuse cfg).1.Looked cfg m :=
  ⟨fun _ => rfl, fun h => absurd rfl h, trivial⟩

theorem held_refuse : (s.refuse cfg).1.Held cfg width m :=
  ⟨fun h => absurd rfl h, trivial⟩

theorem looked_read (h : s.Looked cfg m) (hg : m.Gated cfg) : (s.read m).Looked cfg m := by
  cases hr : s.reader with
  | idle =>
    simp only [Sat.read, hr]
    refine ⟨h.zeros, h.past, ?_⟩
    intro b hb
    obtain ⟨-, hpast, hack⟩ := hg.opened b hb
    exact ⟨hpast, fun _ => hack⟩
  | _ =>
    simp only [Sat.read, hr]
    exact h

theorem held_read (h : s.Held cfg width m) : (s.read m).Held cfg width m := by
  cases hr : s.reader with
  | idle =>
    simp only [Sat.read, hr]
    exact ⟨h.kept, trivial⟩
  | _ =>
    simp only [Sat.read, hr]
    exact h

variable {w : World}

/-- The loop of the copy. -/
theorem copying_cases (cfg : Config) (l : Look) (n : UInt32) (k : ℕ) (tmp : List UInt32) :
    (tmp.length < cfg.words ∧ Sat.copying cfg l n k tmp = .copy l n k tmp) ∨
      (cfg.words ≤ tmp.length ∧ Sat.copying cfg l n k tmp = .recheck l n k tmp) := by
  simp only [Sat.copying]
  split
  · exact Or.inl ⟨‹_›, rfl⟩
  · exact Or.inr ⟨by omega, rfl⟩

/-- An ack that the read sees again is of the boot that it found, which stands. -/
theorem gate_of_again {l : Look} (hg : w.mem.Gated cfg) (hr : w.sat.reader = .gate l)
    (hl : l.Found cfg w.mem) (hack : w.mem.ack = l.ack)
    (hc : Careful cfg (Trace.entry (World.step cfg) w .reader)) : w.mem.gate = l.boot := by
  obtain ⟨b, hb, hpast, hne, -⟩ := hl
  cases hgate : w.mem.gate with
  | none =>
    rcases hg.closed hgate with hzero | hboots
    · exact absurd (hack.symm.trans hzero) hne
    · have := hpast.1
      have := hpast.2.1
      omega
  | some b' => exact (hc.again l b' rfl hr hgate hack).symm

theorem looked_access (hg : w.mem.Gated cfg) (h : w.sat.Looked cfg w.mem)
    (hc : Careful cfg (Trace.entry (World.step cfg) w .reader)) :
    (w.sat.access cfg w.mem).1.Looked cfg w.mem := by
  have hreader := h.reader
  cases hr : w.sat.reader with
  | idle =>
    simp only [Sat.access, hr]
    exact h
  | nonce ack boot =>
    rw [hr] at hreader
    simp only [Sat.access, hr]
    split
    · exact looked_refuse
    · rename_i hmatch
      obtain ⟨hne, hack⟩ := not_or.mp hmatch
      rw [not_not] at hack
      cases boot with
      | none => exact absurd hack (hc.garbage ack rfl hr hne)
      | some b =>
        obtain ⟨hpast, hopen⟩ := hreader b rfl
        have hfound : Look.Found cfg w.mem ⟨ack, w.mem.nonce, some b⟩ := by
          refine ⟨b, rfl, hpast, hne, ?_⟩
          intro hgate
          rcases layout_of_ackOf ((hopen hgate).symm.trans hack) with heq | ⟨hmagic, hnonce⟩
          · exact heq
          · exact absurd hmagic (hc.magic ack (some b) rfl hr hnonce)
        split
        · exact ⟨fun _ => rfl, fun hseq => absurd rfl hseq, hfound, fun hseq => absurd rfl hseq⟩
        · rename_i hsame
          rw [not_not] at hsame
          refine ⟨h.zeros, h.past, hfound, ?_⟩
          intro hseq
          exact congrArg some (hc.kept ack b rfl hr hseq hsame).symm
  | latest l =>
    rw [hr] at hreader
    simp only [Sat.access, hr]
    split
    · exact ⟨h.zeros, h.past, hreader⟩
    · rename_i hnew
      exact ⟨h.zeros, h.past, hreader.1, hreader.2, (not_or.mp hnew).1⟩
  | words l n k =>
    rw [hr] at hreader
    simp only [Sat.access, hr]
    split
    · exact ⟨h.zeros, h.past, hreader.1, hreader.2.1⟩
    · refine ⟨h.zeros, h.past, ?_⟩
      rcases copying_cases cfg l n k [] with ⟨-, hnext⟩ | ⟨-, hnext⟩ <;> simp only [hnext] <;>
        exact hreader
  | copy l n k tmp =>
    rw [hr] at hreader
    simp only [Sat.access, hr]
    refine ⟨h.zeros, h.past, ?_⟩
    rcases copying_cases cfg l n k (tmp ++ [(w.mem.chan cfg.off).cell
      (Kind.wide.slot n cfg.words + 1 + tmp.length)]) with ⟨-, hnext⟩ | ⟨-, hnext⟩ <;>
      simp only [hnext] <;> exact hreader
  | recheck l n k tmp =>
    rw [hr] at hreader
    obtain ⟨hfound, hunder, hne⟩ := hreader
    simp only [Sat.access, hr]
    split
    · exact ⟨h.zeros, h.past, hfound, hunder⟩
    · obtain ⟨b, hb, hpast, -⟩ := id hfound
      refine ⟨fun hzero => absurd hzero hne, fun _ => ?_, hfound, fun _ => ?_⟩
      · simpa only [hb, Option.getD_some] using hpast
      · simp only [hb, Option.getD_some]
  | gate l =>
    rw [hr] at hreader
    simp only [Sat.access, hr]
    split
    · exact looked_refuse
    · rename_i hsame
      rw [not_not] at hsame
      refine ⟨h.zeros, h.past, ?_⟩
      have hgate := gate_of_again hg hr hreader.1 hsame hc
      obtain ⟨b, hb, -, -, hlayout⟩ := hreader.1
      exact hlayout (hgate.trans hb)
  | last l seen =>
    simp only [Sat.access, hr]
    split
    · exact looked_refuse
    · exact ⟨h.zeros, h.past, trivial⟩

theorem held_access (hg : w.mem.Gated cfg) (hf : w.mem.FilledAt cfg.off width w.mem.owner)
    (hl : w.sat.Looked cfg w.mem) (h : w.sat.Held cfg width w.mem)
    (hc : Careful cfg (Trace.entry (World.step cfg) w .reader)) :
    (w.sat.access cfg w.mem).1.Held cfg width w.mem := by
  have hreader := h.reader
  have hlook := hl.reader
  -- where the gate of a read stands, its channel is full
  have hfull : ∀ l : Look, l.Found cfg w.mem → w.mem.gate = l.boot →
      Full cfg.off width w.mem := by
    rintro l ⟨b, hb, -⟩ hgate
    refine full_of_open hf hg ?_
    rw [hgate, hb]
    exact Option.some_ne_none b
  cases hr : w.sat.reader with
  | idle =>
    simp only [Sat.access, hr]
    exact h
  | nonce ack boot =>
    simp only [Sat.access, hr]
    split
    · exact held_refuse
    · split
      · exact ⟨fun hseq => absurd rfl hseq, trivial⟩
      · exact ⟨h.kept, trivial⟩
  | latest l =>
    rw [hr] at hlook
    simp only [Sat.access, hr]
    split
    · exact ⟨h.kept, trivial⟩
    · rename_i hnew
      refine ⟨h.kept, ?_⟩
      intro hgate
      exact (hfull l hlook.1 hgate).good.holding (not_or.mp hnew).1
  | words l n k =>
    rw [hr] at hreader hlook
    simp only [Sat.access, hr]
    split
    · exact ⟨h.kept, trivial⟩
    · rename_i hgeom
      refine ⟨h.kept, ?_⟩
      have hwords := not_not.mp (not_or.mp hgeom).1
      have hwidth : w.mem.gate = l.boot → width = cfg.words := by
        intro hgate
        rw [← (hfull l hlook.1 hgate).good.words, hwords]
      rcases copying_cases cfg l n k [] with ⟨hlt, hnext⟩ | ⟨hle, hnext⟩
      · simp only [hnext]
        intro hgate
        exact ⟨hwidth hgate, (hwidth hgate).symm ▸ hlt, hreader hgate⟩
      · simp only [hnext]
        intro hgate
        have hzero : cfg.words = 0 := Nat.le_zero.mp hle
        exact ⟨hwidth hgate, (hzero.symm.trans (hwidth hgate).symm), hreader hgate⟩
  | copy l n k tmp =>
    rw [hr] at hreader hlook
    simp only [Sat.access, hr]
    refine ⟨h.kept, ?_⟩
    have hcopied : w.mem.gate = l.boot → width = cfg.words ∧ tmp.length < width ∧
        (w.mem.chan cfg.off).Holding k n (tmp ++ [(w.mem.chan cfg.off).cell
          (Kind.wide.slot n cfg.words + 1 + tmp.length)]) := by
      intro hgate
      obtain ⟨hwidth, hlt, hholding⟩ := hreader hgate
      exact ⟨hwidth, hlt, hwidth ▸ hholding.copy (hfull l hlook.1 hgate).good hlt⟩
    rcases copying_cases cfg l n k (tmp ++ [(w.mem.chan cfg.off).cell
      (Kind.wide.slot n cfg.words + 1 + tmp.length)]) with ⟨hlt, hnext⟩ | ⟨hle, hnext⟩
    · simp only [hnext]
      intro hgate
      obtain ⟨hwidth, -, hholding⟩ := hcopied hgate
      exact ⟨hwidth, hwidth ▸ hlt, hholding⟩
    · simp only [hnext]
      intro hgate
      obtain ⟨hwidth, hlt, hholding⟩ := hcopied hgate
      refine ⟨hwidth, ?_, hholding⟩
      rw [List.length_append, List.length_singleton] at hle ⊢
      omega
  | recheck l n k tmp =>
    rw [hr] at hreader hlook
    simp only [Sat.access, hr]
    split
    · exact ⟨h.kept, trivial⟩
    · rename_i hstands
      rw [not_not] at hstands
      refine ⟨?_, trivial⟩
      intro _ hgate
      obtain ⟨b, hb, -⟩ := id hlook.1
      have hopen : w.mem.gate = l.boot := by
        rw [hb]
        simpa only [hb, Option.getD_some] using hgate
      obtain ⟨hwidth, hlen, hholding⟩ := hreader hopen
      have hwhole := hfull l hlook.1 hopen
      have hvalue : tmp = (w.mem.chan cfg.off).value k :=
        hholding.recheck hwhole.good hlen (hwidth ▸ hstands) (hc.lap l n k tmp rfl hr)
      refine ⟨hwidth, hlen, ?_⟩
      rw [hvalue]
      exact hwhole.done k hholding.published
  | gate l =>
    rw [hr] at hlook
    simp only [Sat.access, hr]
    split
    · exact held_refuse
    · rename_i hsame
      rw [not_not] at hsame
      refine ⟨h.kept, ?_⟩
      intro hseq
      exact h.kept hseq ((gate_of_again hg hr hlook.1 hsame hc).trans (hlook.2 hseq))
  | last l seen =>
    simp only [Sat.access, hr]
    split
    · exact held_refuse
    · exact ⟨h.kept, trivial⟩

end Reader

/-! ## Runs -/

/-- What holds in every state. -/
structure Inv (cfg : Config) (w : World) : Prop where
  gated : w.mem.Gated cfg
  looked : w.sat.Looked cfg w.mem
  filled : ∀ width, (cfg.off, width) ∈ cfg.chans → w.mem.FilledAt cfg.off width w.mem.owner
  held : ∀ width, (cfg.off, width) ∈ cfg.chans → w.sat.Held cfg width w.mem

section Runs

variable {cfg : Config} {w : World}

theorem inv_init (ack nonce : UInt32) (chan : ℕ → Channel) :
    Inv cfg (World.init cfg ack nonce chan) := by
  constructor
  case gated => exact ⟨fun _ hb => absurd hb (Option.some_ne_none _).symm, fun _ => Or.inr rfl, trivial⟩
  case looked => exact ⟨fun _ => rfl, fun h => absurd rfl h, trivial⟩
  case filled => exact fun _ _ h => absurd rfl h
  case held => exact fun _ _ => ⟨fun h => absurd rfl h, trivial⟩

/-- A step of the owner. -/
theorem Inv.owner (h : Inv cfg w) {m : Shared} (hgated : m.Gated cfg ∧ w.mem.Keeps m)
    (hfilled : ∀ width, (cfg.off, width) ∈ cfg.chans →
      m.FilledAt cfg.off width m.owner ∧ Moved cfg.off w.mem m) : Inv cfg { w with mem := m } := by
  constructor
  case gated => exact hgated.1
  case looked => exact h.looked.keeps hgated.2
  case filled => exact fun width hw => (hfilled width hw).1
  case held => exact fun width hw => (h.held width hw).keeps h.looked hgated.2 (hfilled width hw).2

theorem inv_step (h : Inv cfg w) (e : Event)
    (hc : Careful cfg (Trace.entry (World.step cfg) w e)) : Inv cfg (w.step cfg e).1 := by
  cases e with
  | reset =>
    refine h.owner (gated_reset h.gated) ?_
    intro width hw
    exact ⟨filled_reset (h.filled width hw) h.gated, moved_same rfl⟩
  | opub o src =>
    refine h.owner (gated_opub h.gated o src) ?_
    intro width hw
    exact filled_opub (h.filled width hw) o src
  | read =>
    constructor
    case gated => exact h.gated
    case looked => exact looked_read h.looked h.gated
    case filled => exact h.filled
    case held => exact fun width hw => held_read (h.held width hw)
  | owner =>
    refine h.owner (gated_access h.gated) ?_
    intro width hw
    exact filled_access (h.filled width hw) h.gated hw
  | reader =>
    constructor
    case gated => exact h.gated
    case looked => exact looked_access h.gated h.looked hc
    case filled => exact h.filled
    case held =>
      intro width hw
      exact held_access h.gated (h.filled width hw) h.looked (h.held width hw) hc

/-- What a step of the reader returns. -/
theorem current_reader (h : Inv cfg w) :
    Current cfg (Trace.entry (World.step cfg) w .reader) := by
  have hreader := h.looked.reader
  cases hr : w.sat.reader with
  | last l seen =>
    rw [hr] at hreader
    by_cases hnonce : w.mem.nonce = l.nonce
    · by_cases hseq : w.sat.rdSeq = 0
      · constructor
        case fresh => simp [World.step, Sat.access, hr, hnonce, hseq]
        case default =>
          intro _
          simpa [World.step, Sat.access, hr, hnonce, hseq] using h.looked.zeros hseq
      · constructor
        case fresh =>
          intro seen' hseen
          have heq : seen = seen' := by
            simpa [World.step, Sat.access, hr, hnonce, hseq] using hseen
          subst heq
          have hlayout : cfg.readLayout = cfg.layout := hreader
          obtain ⟨⟨o, width⟩, hmem, ho⟩ := List.mem_map.mp (cfg.known hlayout)
          have hmem' : (cfg.off, width) ∈ cfg.chans := ho ▸ hmem
          have hheld := (h.held width hmem').reader
          rw [hr] at hheld
          obtain ⟨hwidth, hlen, hdone⟩ := hheld hseq
          refine ⟨hlayout, hwidth ▸ hmem', ?_⟩
          simpa [World.step, Sat.access, hr, hnonce, ← hwidth] using ⟨hdone, hlen⟩
        case default => simp [World.step, Sat.access, hr, hnonce, hseq]
    · constructor <;> simp [World.step, Sat.access, hr, hnonce, Sat.refuse, Sat.downReset]
  | gate l =>
    by_cases hack : w.mem.ack = l.ack
    · constructor <;> simp [World.step, Sat.access, hr, hack]
    · constructor <;> simp [World.step, Sat.access, hr, hack, Sat.refuse, Sat.downReset]
  | nonce ack boot =>
    by_cases hmatch : ack = 0 ∨ ack ≠ ackOf (w.mem.nonce ^^^ cfg.readLayout)
    · constructor <;> simp [World.step, Sat.access, hr, hmatch, Sat.refuse, Sat.downReset]
    · by_cases hsame : w.sat.stNonce = w.mem.nonce <;>
        constructor <;> simp [World.step, Sat.access, hr, hmatch, hsame]
  | idle => constructor <;> simp [World.step, Sat.access, hr]
  | latest l =>
    constructor <;> simp only [Trace.entry_label, World.step, Sat.access, hr] <;> split <;> simp
  | words l n k =>
    constructor <;> simp only [Trace.entry_label, World.step, Sat.access, hr] <;> split <;> simp
  | copy l n k tmp => constructor <;> simp [World.step, Sat.access, hr]
  | recheck l n k tmp =>
    constructor <;> simp only [Trace.entry_label, World.step, Sat.access, hr] <;> split <;> simp

theorem current_step (h : Inv cfg w) (e : Event) :
    Current cfg (Trace.entry (World.step cfg) w e) := by
  cases e with
  | reader => exact current_reader h
  | _ => constructor <;> simp [World.step]

/-- In every run that keeps to the bounds, a read returns 1 only with a value of the owner's layout
and width that was published since the last begin, and leaves zeros where it returns 0. -/
theorem reads_current (cfg : Config) (ack nonce : UInt32) (chan : ℕ → Channel) (es : List Event)
    (hc : ∀ x ∈ Trace.history (World.step cfg) (World.init cfg ack nonce chan) es, Careful cfg x) :
    ∀ x ∈ Trace.history (World.step cfg) (World.init cfg ack nonce chan) es, Current cfg x := by
  refine (Trace.run_induction_of (Careful cfg)
    (fun w hist => Inv cfg w ∧ ∀ x ∈ hist, Current cfg x) ?_ ?_ es hc).2
  · exact ⟨inv_init ack nonce chan, by simp⟩
  · rintro es' e ⟨hinv, hall⟩ hcare
    refine ⟨inv_step hinv e hcare, ?_⟩
    intro x hx
    rw [List.mem_append, List.mem_singleton] at hx
    rcases hx with hx | rfl
    · exact hall x hx
    · exact current_step hinv e

end Runs

/-- The bounds of a step, computed. -/
def careful (cfg : Config) (x : Entry) : Bool :=
  match x.event, x.before.sat.reader with
  | .reader, .nonce ack boot =>
    (match boot with
      | none => decide (ack = 0 ∨ ack ≠ ackOf (x.before.mem.nonce ^^^ cfg.readLayout))
      | some b => decide (x.before.sat.rdSeq = 0 ∨ x.before.sat.stNonce ≠ x.before.mem.nonce ∨
          x.before.sat.stBoot = b)) &&
      decide (cfg.readLayout ≠ cfg.layout ^^^ layoutMagic)
  | .reader, .gate l =>
    match x.before.mem.gate with
    | none => true
    | some b => decide (x.before.mem.ack ≠ l.ack ∨ l.boot = some b)
  | .reader, .recheck _ _ k _ => decide ((x.before.mem.chan cfg.off).count < k + 2 ^ 32)
  | _, _ => true

theorem Careful.of_check {cfg : Config} {x : Entry} (h : careful cfg x = true) :
    Careful cfg x := by
  constructor
  case garbage =>
    intro ack he hr hne
    simp only [careful, he, hr, Bool.and_eq_true, decide_eq_true_eq] at h
    exact h.1.resolve_left hne
  case magic =>
    intro ack boot he hr _
    simp only [careful, he, hr, Bool.and_eq_true, decide_eq_true_eq] at h
    exact h.2
  case again =>
    intro l b he hr hgate hack
    simp only [careful, he, hr, hgate, decide_eq_true_eq] at h
    exact h.resolve_left (not_not.mpr hack)
  case kept =>
    intro ack b he hr hseq hsame
    simp only [careful, he, hr, Bool.and_eq_true, decide_eq_true_eq] at h
    exact (h.1.resolve_left hseq).resolve_left (not_not.mpr hsame)
  case lap =>
    intro l n k tmp he hr
    simpa only [careful, he, hr, decide_eq_true_eq] using h

/-- One channel of one word, and a reader of the same build. -/
def bench : Config where
  layout := 0x1234ABCD
  chans := [(0, 1)]
  apart := by decide
  readLayout := 0x1234ABCD
  off := 0
  words := 1
  known := by decide

/-- Memory that nobody has stored yet. -/
def unset (_ : ℕ) : Channel where
  latest := 0xA5A5A5A5
  words := 0xA5A5A5A5
  wseq := 0xA5A5A5A5
  cell _ := 0xA5A5A5A5

def benchBoot : List Event := List.replicate 15 .owner

def benchPublish : List Event := .opub 0 [7] :: List.replicate 4 .owner

def benchRead : List Event := .read :: List.replicate 7 .reader

/-- A value is published and read, and a reset cuts the next publish: the read after the next boot
finds nothing. -/
def benchReboot : List Event :=
  benchBoot ++ benchPublish ++ benchRead ++ benchPublish.take 3 ++ [.reset] ++ benchBoot ++ benchRead

theorem reads_current_bench :
    (∀ x ∈ Trace.history (World.step bench) (World.init bench 0xA5A5A5A5 0xA5A5A5A5 unset)
      benchReboot, Current bench x) ∧
    ((Trace.history (World.step bench) (World.init bench 0xA5A5A5A5 0xA5A5A5A5 unset)
      benchReboot).map (·.label)).filter (· ≠ .quiet) = [.fresh [(0, [7])], .default] := by
  constructor
  · refine reads_current bench 0xA5A5A5A5 0xA5A5A5A5 unset benchReboot ?_
    intro x hx
    apply Careful.of_check
    revert x
    rw [← List.all_eq_true]
    decide
  · decide

/-- A reader whose layout is that of the owner and the magic word together. -/
def benchOther : Config :=
  { bench with readLayout := 0x1234ABCD ^^^ layoutMagic, known := by decide }

/-- The nonce of the boot is the layout of the owner: its ack is the magic word, and so is that of
the other layout. -/
theorem magic_opens :
    ¬ ∀ x ∈ Trace.history (World.step benchOther) (World.init benchOther 0 0x1234ABCB unset)
      (benchBoot ++ benchPublish ++ benchRead), Current benchOther x := by
  intro h
  have hread : (Trace.history (World.step benchOther) (World.init benchOther 0 0x1234ABCB unset)
      (benchBoot ++ benchPublish ++ benchRead)).any
        (fun x => decide (x.label = .fresh [(0, [7])])) = true := by decide
  obtain ⟨x, hx, hlabel⟩ := List.any_eq_true.mp hread
  rw [decide_eq_true_eq] at hlabel
  exact absurd ((h x hx).fresh _ hlabel).1 (by decide)

end BloblyEmb.Xcore
