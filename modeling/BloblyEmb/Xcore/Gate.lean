import BloblyEmb.Xcore.Content

/-!
# The gate of the owner's window

What the owner leaves in the shared memory, at every word at which a reset may cut it. A gate that is
open was opened by the boot that took the nonce last, its layout is in the word, and the channels
behind it hold what was published since; no step opens the gate of an earlier boot again.
-/
namespace BloblyEmb.Xcore

open Xioc (slots)

/-! ## The gate -/

theorem layout_of_ackOf {n a b : UInt32} (h : ackOf (n ^^^ a) = ackOf (n ^^^ b)) :
    b = a ∨ (b = a ^^^ layoutMagic ∧ (n = a ∨ n = b)) := by
  have hzero : ∀ c : UInt32, n ^^^ c = 0 → n = c := by
    intro c hc
    exact UInt32.xor_eq_zero_iff.mp hc
  simp only [ackOf] at h
  by_cases ha : n ^^^ a = 0
  · have hna := hzero a ha
    by_cases hb : n ^^^ b = 0
    · exact Or.inl ((hzero b hb).symm.trans hna)
    · rw [if_neg (not_not.mpr ha), if_pos hb, hna] at h
      refine Or.inr ⟨?_, Or.inl hna⟩
      rw [h, ← UInt32.xor_assoc, UInt32.xor_self, UInt32.zero_xor]
  · by_cases hb : n ^^^ b = 0
    · have hnb := hzero b hb
      rw [if_pos ha, if_neg (not_not.mpr hb), hnb] at h
      refine Or.inr ⟨?_, Or.inr hnb⟩
      rw [← h, UInt32.xor_comm b a, ← UInt32.xor_assoc, UInt32.xor_self, UInt32.zero_xor]
    · rw [if_pos ha, if_pos hb] at h
      exact Or.inl ((UInt32.xor_right_inj n).mp h).symm

/-- An owner boot has its nonce, and has not opened the gate yet. -/
def Owner.starting : Owner → Prop
  | .init _ | .clear _ _ _ _ | .wseq _ _ _ | .geometry _ _ _ => True
  | _ => False

namespace Shared

/-- The gate was opened by this boot at some time. -/
def Past (m : Shared) (b : ℕ) : Prop := 0 < b ∧ b ≤ m.boots ∧ (m.owner.starting → b < m.boots)

def GateAt (m : Shared) : Owner → Prop
  | .off => True
  | .loadNonce | .storeNonce _ => m.gate = none ∧ m.ack = 0
  | .init _ | .clear _ _ _ _ | .wseq _ _ _ | .geometry _ _ _ =>
    m.gate = none ∧ m.ack = 0 ∧ m.owNonce = m.nonce ∧ 0 < m.boots
  | _ => m.gate = some m.boots

structure Gated (cfg : Config) (m : Shared) : Prop where
  opened : ∀ b, m.gate = some b → b = m.boots ∧ m.Past b ∧ m.ack = ackOf (m.nonce ^^^ cfg.layout)
  closed : m.gate = none → m.ack = 0 ∨ m.boots = 0
  owner : m.GateAt m.owner

/-- What a step of the owner leaves of a gate that is open after it. -/
structure Keeps (m m' : Shared) : Prop where
  past : ∀ b, m.Past b → m'.Past b
  gate : ∀ b, m.Past b → m'.gate = some b → m.gate = some b
  nonce : ∀ b, m.Past b → m'.gate = some b → m'.nonce = m.nonce
  done : ∀ b, m.Past b → m'.gate = some b → ∀ e ∈ m.done, e ∈ m'.done

end Shared

section Owner

variable {cfg : Config} {m m' : Shared}

/-- A step that stores no word of the gate. -/
theorem Shared.Gated.aside (h : m.Gated cfg) (hack : m'.ack = m.ack) (hnonce : m'.nonce = m.nonce)
    (hgate : m'.gate = m.gate) (hboots : m'.boots = m.boots)
    (hstart : m'.owner.starting → m.owner.starting) (howner : m'.GateAt m'.owner)
    (hdone : ∀ e ∈ m.done, e ∈ m'.done) : m'.Gated cfg ∧ m.Keeps m' := by
  have hpast : ∀ b, m.Past b → m'.Past b := by
    intro b hb
    refine ⟨hb.1, hboots ▸ hb.2.1, ?_⟩
    intro hs
    exact hboots ▸ hb.2.2 (hstart hs)
  constructor
  · constructor
    case opened =>
      intro b hb
      obtain ⟨hboot, hp, ha⟩ := h.opened b (hgate.symm.trans hb)
      exact ⟨hboots ▸ hboot, hpast b hp, by rw [hack, hnonce, ha]⟩
    case closed =>
      intro hnone
      rw [hack, hboots]
      exact h.closed (hgate.symm.trans hnone)
    case owner => exact howner
  · constructor
    case past => exact hpast
    case gate => exact fun b _ hb => hgate.symm.trans hb
    case nonce => exact fun _ _ _ => hnonce
    case done => exact fun _ _ _ => hdone

theorem gated_reset (h : m.Gated cfg) : m.reset.Gated cfg ∧ m.Keeps m.reset :=
  h.aside rfl rfl rfl rfl False.elim trivial fun _ => id

theorem gated_opub (h : m.Gated cfg) (o : ℕ) (src : List UInt32) :
    (m.opub o src).Gated cfg ∧ m.Keeps (m.opub o src) := by
  have hm := h.owner
  cases ho : m.owner with
  | idle =>
    rw [ho] at hm
    simp only [Shared.opub, ho]
    exact h.aside rfl rfl rfl rfl False.elim hm fun _ => id
  | _ =>
    simp only [Shared.opub, ho]
    exact h.aside rfl rfl rfl rfl id (ho ▸ h.owner) fun _ => id

/-- The loop of the words of a value stores no word of the gate. -/
theorem gateAt_storing {o : ℕ} {n : UInt32} {v : List UInt32} {i : ℕ}
    (h : m'.gate = some m'.boots) :
    m'.GateAt (m.storing o n v i) ∧ ¬ (m.storing o n v i).starting := by
  simp only [Shared.storing]
  split <;> exact ⟨h, id⟩

theorem gated_access (h : m.Gated cfg) : (m.access cfg).Gated cfg ∧ m.Keeps (m.access cfg) := by
  have hm := h.owner
  cases ho : m.owner with
  | off =>
    simp only [Shared.access, ho]
    constructor
    · exact ⟨by simp, fun _ => Or.inl rfl, rfl, rfl⟩
    · exact ⟨fun b hb => ⟨hb.1, hb.2.1, False.elim⟩, by simp, by simp, by simp⟩
  | loadNonce =>
    rw [ho] at hm
    simp only [Shared.access, ho]
    exact h.aside rfl rfl rfl rfl False.elim hm fun _ => id
  | storeNonce v =>
    rw [ho] at hm
    simp only [Shared.access, ho]
    constructor
    · exact ⟨by simp [hm.1], fun _ => Or.inl hm.2, hm.1, hm.2, rfl, Nat.succ_pos _⟩
    · refine ⟨?_, by simp [hm.1], by simp [hm.1], by simp [hm.1]⟩
      intro b hb
      exact ⟨hb.1, Nat.le_succ_of_le hb.2.1, fun _ => Nat.lt_succ_of_le hb.2.1⟩
  | init todo =>
    rw [ho] at hm
    obtain ⟨hgate, hack, hnonce, hpos⟩ := hm
    cases todo with
    | nil =>
      simp only [Shared.access, ho]
      constructor
      · constructor
        case opened =>
          intro b hb
          cases hb
          exact ⟨rfl, ⟨hpos, Nat.le_refl _, False.elim⟩, by rw [hnonce]⟩
        case closed => simp
        case owner => rfl
      -- the boot that opens the gate is none of those before it
      · have hnew : ∀ b, m.Past b → m.boots ≠ b := by
          intro b hb
          have hlt := hb.2.2 (by rw [ho]; trivial)
          omega
        constructor
        case past => exact fun b hb => ⟨hb.1, hb.2.1, False.elim⟩
        case gate => exact fun b hb hopen => absurd (Option.some.inj hopen) (hnew b hb)
        case nonce => exact fun _ _ _ => rfl
        case done => exact fun _ _ _ _ => id
    | cons ch rest =>
      simp only [Shared.access, ho]
      exact h.aside rfl rfl rfl rfl (fun _ => by rw [ho]; trivial) ⟨hgate, hack, hnonce, hpos⟩
        fun _ => id
  | clear o words i rest =>
    rw [ho] at hm
    simp only [Shared.access, ho]
    refine h.aside rfl rfl rfl rfl (fun _ => by rw [ho]; trivial) ?_ fun _ => id
    dsimp only
    split <;> exact hm
  | wseq o words rest =>
    rw [ho] at hm
    simp only [Shared.access, ho]
    exact h.aside rfl rfl rfl rfl (fun _ => by rw [ho]; trivial) hm fun _ => id
  | geometry o words rest =>
    rw [ho] at hm
    simp only [Shared.access, ho]
    exact h.aside rfl rfl rfl rfl (fun _ => by rw [ho]; trivial) hm fun _ => id
  | idle =>
    simp only [Shared.access, ho]
    exact h.aside rfl rfl rfl rfl id (ho ▸ h.owner) fun _ => id
  | invalidate o n v =>
    rw [ho] at hm
    simp only [Shared.access, ho]
    exact h.aside rfl rfl rfl rfl (fun hs => absurd hs (gateAt_storing hm).2) (gateAt_storing hm).1
      fun _ => id
  | payload o n v i =>
    rw [ho] at hm
    simp only [Shared.access, ho]
    exact h.aside rfl rfl rfl rfl (fun hs => absurd hs (gateAt_storing hm).2) (gateAt_storing hm).1
      fun _ => id
  | validate o n v =>
    rw [ho] at hm
    simp only [Shared.access, ho]
    exact h.aside rfl rfl rfl rfl False.elim hm fun _ => id
  | publish o n v =>
    rw [ho] at hm
    simp only [Shared.access, ho]
    exact h.aside rfl rfl rfl rfl False.elim hm fun _ => List.mem_cons_of_mem _

end Owner

/-! ## The channel behind it -/

/-- The channels that are still to be initialised: this one is initialised, or one of them. -/
def Pending (off width : ℕ) (todo : List (ℕ × ℕ)) (c : Channel) : Prop :=
  if off ∈ todo.map Prod.fst then (off, width) ∈ todo
  else c.Good width ∧ c.pub = 0 ∧ c.count = 0

/-- The first so many words of this channel are zero, if it is the one being initialised. -/
structure Cleared (off width o words i : ℕ) (rest : List (ℕ × ℕ)) (c : Channel) : Prop where
  apart : (o :: rest.map Prod.fst).Nodup
  here : o = off → words = width ∧ c.latest = 0 ∧ ∀ j < i, c.cell j = 0
  other : o ≠ off → Pending off width rest c

/-- The channel is initialised, and its publications are those since the last begin. -/
structure Full (off width : ℕ) (m : Shared) : Prop where
  good : (m.chan off).Good width
  done : ∀ k < (m.chan off).pub, (off, (m.chan off).value k) ∈ m.done

/-- The owner publishes: on this channel, or on another. -/
structure Busy (off width : ℕ) (m : Shared) (o : ℕ) (P : Channel → Prop) : Prop
    extends Full off width m where
  here : o = off → P (m.chan off)
  other : o ≠ off → (m.chan off).pub = (m.chan off).count

namespace Shared

def FilledAt (off width : ℕ) (m : Shared) : Owner → Prop
  | .off => m.gate ≠ none → Full off width m
  | .loadNonce | .storeNonce _ => True
  | .init todo => (todo.map Prod.fst).Nodup ∧ Pending off width todo (m.chan off)
  | .clear o words i rest => Cleared off width o words i rest (m.chan off)
  | .wseq o words rest | .geometry o words rest =>
    Cleared off width o words (slots * (1 + words)) rest (m.chan off)
  | .idle => Full off width m ∧ (m.chan off).pub = (m.chan off).count
  | .invalidate o n v => Busy off width m o fun c => c.Begun n v
  | .payload o n v i => Busy off width m o fun c => c.Stored width n v i ∧ i < width
  | .validate o n v => Busy off width m o fun c => c.Stored width n v width
  | .publish o n v => Busy off width m o fun c =>
    c.Begun n v ∧ c.slot (n.toNat % slots) = some c.pub

end Shared

/-- The moves of a channel while the gate of one boot stands. -/
def Moved (off : ℕ) (m m' : Shared) : Prop :=
  ∀ b, m.Past b → m'.gate = some b → (m.chan off).Moves (m'.chan off)

section Filling

variable {cfg : Config} {off width : ℕ} {m m' : Shared}

theorem Full.same (h : Full off width m) (hchan : m'.chan off = m.chan off)
    (hdone : ∀ e ∈ m.done, e ∈ m'.done) : Full off width m' := by
  constructor
  case good => exact hchan ▸ h.good
  case done =>
    intro k hk
    rw [hchan] at hk ⊢
    exact hdone _ (h.done k hk)

/-- A step of the owner on this channel, while the values of its publications stay. -/
theorem Full.moves (h : Full off width m) (hgood : (m'.chan off).Good width)
    (hmoves : (m.chan off).Moves (m'.chan off)) (hpub : (m'.chan off).pub = (m.chan off).pub)
    (hdone : m'.done = m.done) : Full off width m' := by
  constructor
  case good => exact hgood
  case done =>
    intro k hk
    rw [hpub] at hk
    rw [hdone, hmoves.value k hk]
    exact h.done k hk

theorem moved_same (hchan : m'.chan off = m.chan off) : Moved off m m' := by
  intro b _ _
  rw [hchan]
  exact Channel.Moves.refl _

theorem moved_closed (hgate : m'.gate = m.gate) (hclosed : m.gate = none) : Moved off m m' := by
  intro b _ hb
  simp [hgate, hclosed] at hb

theorem Pending.step {o words : ℕ} {rest : List (ℕ × ℕ)} {c c' : Channel}
    (hnd : (((o, words) :: rest).map Prod.fst).Nodup)
    (h : Pending off width ((o, words) :: rest) c)
    (hsame : o ≠ off → c' = c) (hlatest : o = off → c'.latest = 0) :
    Cleared off width o words 0 rest c' := by
  constructor
  case apart => exact hnd
  case here =>
    intro ho
    subst ho
    simp only [Pending, List.map_cons, List.mem_cons, true_or, if_true] at h
    refine ⟨?_, hlatest rfl, fun j hj => absurd hj (Nat.not_lt_zero j)⟩
    rcases h with h | h
    · exact (Prod.mk.inj h).2.symm
    · exact absurd (List.mem_map_of_mem h) (List.nodup_cons.mp hnd).1
  case other =>
    intro ho
    rw [hsame ho]
    simp only [Pending, List.map_cons, List.mem_cons, Prod.mk.injEq, Ne.symm ho, false_or,
      false_and] at h ⊢
    exact h

theorem Cleared.step {o words i : ℕ} {rest : List (ℕ × ℕ)} {c c' : Channel}
    (h : Cleared off width o words i rest c) (hsame : o ≠ off → c' = c)
    (hclear : o = off → c' = c.clear i) : Cleared off width o words (i + 1) rest c' := by
  constructor
  case apart => exact h.apart
  case here =>
    intro ho
    obtain ⟨hwords, hlatest, hcell⟩ := h.here ho
    rw [hclear ho]
    refine ⟨hwords, hlatest, ?_⟩
    intro j hj
    simp only [Channel.clear, Function.update_apply]
    split
    · rfl
    · exact hcell j (by omega)
  case other =>
    intro ho
    rw [hsame ho]
    exact h.other ho

theorem Cleared.wseq {o words i : ℕ} {rest : List (ℕ × ℕ)} {c c' : Channel} (seed : UInt32)
    (h : Cleared off width o words i rest c) (hsame : o ≠ off → c' = c)
    (hseed : o = off → c' = c.setWseq seed) : Cleared off width o words i rest c' := by
  constructor
  case apart => exact h.apart
  case here =>
    intro ho
    rw [hseed ho]
    exact h.here ho
  case other =>
    intro ho
    rw [hsame ho]
    exact h.other ho

theorem Cleared.geometry {o words : ℕ} {rest : List (ℕ × ℕ)} {c c' : Channel}
    (h : Cleared off width o words (slots * (1 + words)) rest c) (hsame : o ≠ off → c' = c)
    (hgeom : o = off → c' = c.geometry words) : Pending off width rest c' := by
  by_cases ho : o = off
  · obtain ⟨rfl, hlatest, hcell⟩ := h.here ho
    have hnot := (List.nodup_cons.mp h.apart).1
    rw [hgeom ho, Pending, if_neg (ho ▸ hnot)]
    exact ⟨Channel.good_geometry hlatest hcell, rfl, rfl⟩
  · rw [hsame ho]
    exact h.other ho

theorem chan_setChan_self (off : ℕ) (m : Shared) (c : Channel) : (m.setChan off c).chan off = c := by
  simp [Shared.setChan]

theorem chan_setChan_of_ne (m : Shared) {o : ℕ} (ho : o ≠ off) (c : Channel) :
    (m.setChan o c).chan off = m.chan off := by
  simp [Shared.setChan, Function.update_of_ne (Ne.symm ho)]

/-- An access of the owner to one channel, where it publishes. -/
theorem Busy.step {o : ℕ} {P Q : Channel → Prop} (h : Busy off width m o P) {c : Channel}
    (hchan : m'.chan = Function.update m.chan o c) (hdone : m'.done = m.done)
    (hstep : o = off → c.Good width ∧ Q c ∧ (m.chan off).Moves c ∧ c.pub = (m.chan off).pub) :
    Busy off width m' o Q ∧ Moved off m m' := by
  by_cases ho : o = off
  · subst ho
    obtain ⟨hgood, hq, hmoves, hpub⟩ := hstep rfl
    have hself : m'.chan o = c := by
      rw [hchan, Function.update_self]
    constructor
    · constructor
      case toFull =>
        exact h.toFull.moves (hself ▸ hgood) (hself ▸ hmoves) (hself ▸ hpub) hdone
      case here => exact fun _ => hself ▸ hq
      case other => exact fun hne => absurd rfl hne
    · intro b _ _
      exact hself ▸ hmoves
  · have hsame : m'.chan off = m.chan off := by
      rw [hchan, Function.update_of_ne (Ne.symm ho)]
    constructor
    · constructor
      case toFull => exact h.toFull.same hsame fun e he => hdone ▸ he
      case here => exact fun heq => absurd heq ho
      case other =>
        intro _
        rw [hsame]
        exact h.other ho
    · exact moved_same hsame

/-- The value that the owner was at is published. -/
theorem Busy.publish {o : ℕ} {n : UInt32} {v : List UInt32}
    (h : Busy off width m o fun c => c.Begun n v ∧ c.slot (n.toNat % slots) = some c.pub)
    (hchan : m'.chan = Function.update m.chan o ((m.chan o).publish n))
    (hdone : m'.done = (o, v) :: m.done) :
    (Full off width m' ∧ (m'.chan off).pub = (m'.chan off).count) ∧ Moved off m m' := by
  have holds : ∀ e ∈ m.done, e ∈ m'.done := by
    intro e he
    exact hdone ▸ List.mem_cons_of_mem _ he
  by_cases ho : o = off
  · subst ho
    obtain ⟨hbegun, hslot⟩ := h.here rfl
    obtain ⟨hgood, hidle, hmoves⟩ := h.good.publish hbegun hslot
    have hself : m'.chan o = (m.chan o).publish n := by
      rw [hchan, Function.update_self]
    refine ⟨⟨⟨hself ▸ hgood, ?_⟩, hself ▸ hidle⟩, fun _ _ _ => hself ▸ hmoves⟩
    intro k hk
    rw [hself] at hk ⊢
    rcases Nat.lt_or_ge k (m.chan o).pub with hlt | hge
    · exact holds _ (h.done k hlt)
    · have heq : k = (m.chan o).pub := by
        have hcount := hbegun.count
        simp only [Channel.publish] at hk
        omega
      subst heq
      rw [hdone, hbegun.value]
      exact List.mem_cons_self
  · have hsame : m'.chan off = m.chan off := by
      rw [hchan, Function.update_of_ne (Ne.symm ho)]
    refine ⟨⟨h.toFull.same hsame holds, ?_⟩, moved_same hsame⟩
    rw [hsame]
    exact h.other ho

/-- While the gate stands, the channel is full. -/
theorem full_of_open (h : m.FilledAt off width m.owner) (hg : m.Gated cfg) (hgate : m.gate ≠ none) :
    Full off width m := by
  have howner := hg.owner
  cases ho : m.owner with
  | off => exact (ho ▸ h) hgate
  | loadNonce => exact absurd (ho ▸ howner).1 hgate
  | storeNonce v => exact absurd (ho ▸ howner).1 hgate
  | init todo => exact absurd (ho ▸ howner).1 hgate
  | clear o words i rest => exact absurd (ho ▸ howner).1 hgate
  | wseq o words rest => exact absurd (ho ▸ howner).1 hgate
  | geometry o words rest => exact absurd (ho ▸ howner).1 hgate
  | idle => exact (ho ▸ h).1
  | invalidate o n v => exact (ho ▸ h).toFull
  | payload o n v i => exact (ho ▸ h).toFull
  | validate o n v => exact (ho ▸ h).toFull
  | publish o n v => exact (ho ▸ h).toFull

theorem filled_reset (h : m.FilledAt off width m.owner) (hg : m.Gated cfg) :
    m.reset.FilledAt off width .off := fun hgate => (full_of_open h hg hgate).same rfl fun _ => id

theorem filled_opub (h : m.FilledAt off width m.owner) (o : ℕ) (src : List UInt32) :
    (m.opub o src).FilledAt off width (m.opub o src).owner ∧ Moved off m (m.opub o src) := by
  cases ho : m.owner with
  | idle =>
    rw [ho] at h
    obtain ⟨hfull, hidle⟩ := h
    simp only [Shared.opub, ho]
    refine Busy.step (P := fun c => c.pub = c.count) ⟨hfull, fun _ => hidle, fun _ => hidle⟩ rfl rfl ?_
    intro hoff
    subst hoff
    have hlen : ((List.range (m.chan o).words).map fun i => src.getD i 0).length = width := by
      rw [List.length_map, List.length_range, hfull.good.words]
    obtain ⟨hgood, hbegun, hmoves⟩ := hfull.good.start hidle hlen
    exact ⟨hgood, hbegun, hmoves, rfl⟩
  | _ =>
    simp only [Shared.opub, ho]
    exact ⟨ho ▸ h, moved_same rfl⟩

/-- A store of the owner in the slot of its value; then the next word of it, or the sequence word. -/
theorem Busy.storing {o : ℕ} {n : UInt32} {v : List UInt32} {i : ℕ} {P : Channel → Prop}
    (h : Busy off width m o P) {c : Channel} (hchan : m'.chan = Function.update m.chan o c)
    (hdone : m'.done = m.done) (howner : m'.owner = m.storing o n v i)
    (hstep : o = off → c.Good width ∧ (c.Stored width n v i ∧ i ≤ width) ∧
      (m.chan off).Moves c ∧ c.pub = (m.chan off).pub) :
    m'.FilledAt off width m'.owner ∧ Moved off m m' := by
  obtain ⟨hbusy, hmoved⟩ := h.step (Q := fun c => c.Stored width n v i ∧ i ≤ width) hchan hdone hstep
  refine ⟨?_, hmoved⟩
  rw [howner, Shared.storing]
  split
  · rename_i hlt
    refine ⟨hbusy.toFull, ?_, hbusy.other⟩
    rintro rfl
    rw [h.good.words] at hlt
    exact ⟨(hbusy.here rfl).1, hlt⟩
  · rename_i hge
    refine ⟨hbusy.toFull, ?_, hbusy.other⟩
    rintro rfl
    obtain ⟨hstored, hle⟩ := hbusy.here rfl
    rw [h.good.words] at hge
    have hi : i = width := by omega
    exact hi ▸ hstored

theorem filled_access (h : m.FilledAt off width m.owner) (hg : m.Gated cfg)
    (hcfg : (off, width) ∈ cfg.chans) :
    (m.access cfg).FilledAt off width (m.access cfg).owner ∧ Moved off m (m.access cfg) := by
  cases ho : m.owner with
  | off =>
    simp only [Shared.access, ho]
    exact ⟨trivial, moved_same rfl⟩
  | loadNonce =>
    simp only [Shared.access, ho]
    exact ⟨trivial, moved_same rfl⟩
  | storeNonce v =>
    simp only [Shared.access, ho]
    refine ⟨⟨cfg.apart, ?_⟩, moved_same rfl⟩
    rw [Pending, if_pos (List.mem_map_of_mem (f := Prod.fst) hcfg)]
    exact hcfg
  | init todo =>
    rw [ho] at h
    obtain ⟨hnd, hpending⟩ := h
    cases todo with
    | nil =>
      obtain ⟨hgood, hpub, hcount⟩ := hpending
      simp only [Shared.access, ho]
      refine ⟨⟨⟨hgood, ?_⟩, hpub.trans hcount.symm⟩, moved_same rfl⟩
      intro k hk
      exact absurd (hpub ▸ hk) (Nat.not_lt_zero k)
    | cons ch rest =>
      obtain ⟨o, words⟩ := ch
      simp only [Shared.access, ho]
      constructor
      · refine hpending.step hnd ?_ ?_
        · intro hoff
          exact chan_setChan_of_ne m hoff _
        · rintro rfl
          exact congrArg Channel.latest (chan_setChan_self _ m _)
      · have hclosed := hg.owner
        rw [ho] at hclosed
        exact moved_closed rfl hclosed.1
  | clear o words i rest =>
    rw [ho] at h
    have hclosed := hg.owner
    rw [ho] at hclosed
    have hnext : Cleared off width o words (i + 1) rest
        ((m.setChan o ((m.chan o).clear i)).chan off) := by
      refine h.step ?_ ?_
      · intro hoff
        exact chan_setChan_of_ne m hoff _
      · rintro rfl
        exact chan_setChan_self _ m _
    simp only [Shared.access, ho]
    constructor
    · split
      · exact hnext
      · rename_i hlast
        refine ⟨hnext.apart, ?_, hnext.other⟩
        intro hoff
        obtain ⟨hwords, hlatest, hcell⟩ := hnext.here hoff
        exact ⟨hwords, hlatest, fun j hj => hcell j (by omega)⟩
    · exact moved_closed rfl hclosed.1
  | wseq o words rest =>
    rw [ho] at h
    have hclosed := hg.owner
    rw [ho] at hclosed
    simp only [Shared.access, ho]
    constructor
    · refine h.wseq m.owSeed ?_ ?_
      · intro hoff
        exact chan_setChan_of_ne m hoff _
      · rintro rfl
        exact chan_setChan_self _ m _
    · exact moved_closed rfl hclosed.1
  | geometry o words rest =>
    rw [ho] at h
    have hclosed := hg.owner
    rw [ho] at hclosed
    simp only [Shared.access, ho]
    constructor
    · refine ⟨(List.nodup_cons.mp h.apart).2, h.geometry ?_ ?_⟩
      · intro hoff
        exact chan_setChan_of_ne m hoff _
      · rintro rfl
        exact chan_setChan_self _ m _
    · exact moved_closed rfl hclosed.1
  | idle =>
    simp only [Shared.access, ho]
    exact ⟨ho ▸ h, moved_same rfl⟩
  | invalidate o n v =>
    rw [ho] at h
    simp only [Shared.access, ho]
    refine h.storing rfl rfl rfl ?_
    rintro rfl
    obtain ⟨hgood, hstored, hmoves⟩ := h.good.invalidate (h.here rfl)
    exact ⟨hgood, ⟨hstored, Nat.zero_le _⟩, hmoves, rfl⟩
  | payload o n v i =>
    rw [ho] at h
    simp only [Shared.access, ho]
    refine h.storing rfl rfl rfl ?_
    rintro rfl
    obtain ⟨hstored, hlt⟩ := h.here rfl
    obtain ⟨hgood, hnext, hmoves⟩ := h.good.payload hstored hlt
    exact ⟨hgood, ⟨hnext, hlt⟩, hmoves, rfl⟩
  | validate o n v =>
    rw [ho] at h
    simp only [Shared.access, ho]
    refine h.step rfl rfl ?_
    rintro rfl
    obtain ⟨hgood, hbegun, hslot, hmoves⟩ := h.good.validate (h.here rfl)
    exact ⟨hgood, ⟨hbegun, hslot⟩, hmoves, rfl⟩
  | publish o n v =>
    rw [ho] at h
    simp only [Shared.access, ho]
    exact h.publish rfl rfl

end Filling

end BloblyEmb.Xcore
