import BloblyEmb.Multicore.Freeze
import Mathlib.Tactic.Common

/-!
# Which window a freeze and a restart belong to

A trip freezes the window it happened in, on both cores, and the satellite restarts its ring at the
first hook after a re-arm was posted for it. Both are told by generations, which holds as long as
their low bits tell them apart and the satellite reads no re-arm of a generation later than the one
it takes up.
-/
namespace BloblyEmb.Multicore

abbrev Step := Trace.Entry World Event Label

/-- A re-arm of the satellite. -/
def Posted (hist : List Step) (gen : ℕ) : Prop := ∃ y ∈ hist, y.label = .posted gen

/-- A trip that claimed a generation. -/
def Raised (hist : List Step) (gen : ℕ) : Prop := ∃ y ∈ hist, ∃ who, y.label = .raised who gen

/-- What holds of every step. -/
structure Proper (hist : List Step) (x : Step) : Prop where
  /-- A trip claims the generation in force, and freezes no other. -/
  raise : ∀ who g, x.label = .raised who g → g = x.before.sync.word
  freeze : ∀ who g, x.label = .synced who (some g) →
    g = (x.before.core who).gen ∧ g = x.before.sync.word
  /-- The satellite restarts for the re-arms between two generations that it takes up. -/
  restart : ∀ old new restarted, x.label = .adopted old new restarted →
    (restarted = true ↔ ∃ k, Posted hist k ∧ old < k ∧ k ≤ new)
  /-- And only then. -/
  window : (x.after.sat.gen = x.before.sat.gen ∧
      x.after.sat.ring.windows = x.before.sat.ring.windows) ∨
    ∃ restarted, x.label = .adopted x.before.sat.gen x.after.sat.gen restarted ∧
      x.before.sat.gen < x.after.sat.gen ∧
      x.after.sat.ring.windows = x.before.sat.ring.windows + if restarted then 1 else 0
  /-- Before it records in a hook that began after the re-arm. -/
  record : ∀ began, x.label = .recorded began →
    ∀ k, Posted hist k → k ≤ began → k ≤ x.before.sat.gen
  /-- And before the host's command stops or reads it. -/
  touch : ∀ op, x.label = .touched op → ∀ k, Posted hist k → k ≤ x.before.sat.gen
  /-- The end of a hook in a generation that was claimed. -/
  claim : ∀ who found, x.label = .synced who found → Raised hist (x.before.core who).gen →
    (x.before.core who).gen = x.before.sync.word → (x.after.core who).ring.Halting

/-- The low bits tell the generations in use apart. -/
structure Near (w : World) : Prop where
  owner : w.freezeGen < w.owner.gen + genMod / 2
  sat : w.freezeGen < w.sat.gen + genMod / 2
  rearm : w.freezeGen < w.sync.rearm + genMod / 2
  ack : w.freezeGen < w.sync.ack + genMod / 2

/-- The generation that the satellite is about to take up, where a newer re-arm is posted. -/
def World.readsAhead (w : World) : Option ℕ :=
  match w.sat.thread with
  | .rearm _ _ g _ => if g < w.sync.rearm then some g else none
  | _ => none

/-- Near, and the satellite reads no re-arm that is newer than the generation it takes up, unless it
restarts for another one. -/
structure Careful (hist : List Step) (x : Step) : Prop where
  near : Near x.before
  order : ∀ now g, x.event = .step .sat now → x.before.readsAhead = some g →
    ∃ k, Posted hist k ∧ x.before.sat.gen < k ∧ k ≤ g

instance (w : World) : Decidable (Near w) :=
  decidable_of_iff
    ((w.freezeGen < w.owner.gen + genMod / 2 ∧ w.freezeGen < w.sat.gen + genMod / 2) ∧
      w.freezeGen < w.sync.rearm + genMod / 2 ∧ w.freezeGen < w.sync.ack + genMod / 2)
    ⟨fun h => ⟨h.1.1, h.1.2, h.2.1, h.2.2⟩, fun h => ⟨⟨h.owner, h.sat⟩, h.rearm, h.ack⟩⟩

/-- No re-arm is posted ahead of the generation that the satellite takes up. -/
def Abreast (x : Step) : Prop := Near x.before ∧ x.before.readsAhead = none

instance (x : Step) : Decidable (Abreast x) := inferInstanceAs (Decidable (_ ∧ _))

theorem Abreast.careful {x : Step} (h : Abreast x) (hist : List Step) : Careful hist x where
  near := h.1
  order := by simp [h.2]

/-! ## Generations that are near -/

theorem genSame_iff {a b : ℕ} (h : a < b + genMod) (h' : b ≤ a) : genSame a b = true ↔ a = b := by
  simp only [genSame, genMod, beq_iff_eq] at *
  omega

theorem genAfter_iff {a b n : ℕ} (ha : a ≤ n) (hb : b ≤ n) (hna : n < a + genMod / 2)
    (hnb : n < b + genMod / 2) : genAfter a b = true ↔ b < a := by
  have hd : genAfter a b = true ↔ (a + (genMod - b % genMod)) % genMod ≠ 0 ∧
      (a + (genMod - b % genMod)) % genMod < genMod / 2 := by
    simp only [genAfter, decide_eq_true_eq]
  rw [hd]
  simp only [genMod] at *
  omega

/-! ## Rings -/

namespace Ring

variable (t : Ring)

@[simp] theorem windows_push : t.push.windows = t.windows := by
  simp only [push]
  split
  · rfl
  split
  · split <;> rfl
  · split
    · split <;> rfl
    · rfl

@[simp] theorem windows_stop : t.stop.windows = t.windows := by
  simp only [stop]
  split <;> rfl

@[simp] theorem windows_trigger : t.trigger.windows = t.windows := by
  simp only [trigger]
  split
  · rfl
  split
  · rfl
  split
  · rfl
  · split <;> rfl

@[simp] theorem windows_trip : t.trip.1.windows = t.windows := by
  simp only [trip]
  split
  · rfl
  · exact windows_trigger t

theorem halting_stop : t.stop.Halting := by
  simp only [stop, Halting]
  split
  · left
    split <;> simp
  · rename_i h
    exact .inl h

theorem halting_trigger : t.trigger.Halting := by
  simp only [trigger, Halting]
  split
  · rename_i h
    exact .inl h
  split
  · exact .inl (by simp)
  split
  · rename_i h
    exact .inr h
  · split
    · exact .inl (by simp)
    · exact .inr rfl

theorem halting_trip (h : t.trip.2 = true) : t.trip.1.Halting := by
  simp only [trip] at h ⊢
  split at h
  · simp at h
  · rename_i hno
    rw [if_neg hno]
    exact halting_trigger t

end Ring

theorem windows_recordDispatch (c : Core) (d : Dispatch) :
    (c.recordDispatch d).1.ring.windows = c.ring.windows ∧ (c.recordDispatch d).1.gen = c.gen := by
  simp only [Core.recordDispatch]
  split <;> split <;> simp

theorem halting_recordDispatch (c : Core) (d : Dispatch) (h : (c.recordDispatch d).2 = true) :
    (c.recordDispatch d).1.ring.Halting := by
  simp only [Core.recordDispatch] at h ⊢
  split at h
  · rename_i hover
    rw [if_pos hover]
    exact Ring.halting_trip _ h
  · simp at h

/-! ## The invariant -/

/-- Where a hook is, against the generation in force. -/
def HookAt (word rearm : ℕ) (c : Core) : Thread → Prop
  | .word began _ => began ≤ word
  | .since began _ g | .again began _ g _ => began ≤ g ∧ c.gen ≤ g ∧ g ≤ word
  | .rearm began _ g _ => began ≤ g ∧ c.gen < g ∧ g ≤ word
  | .ack began _ _ | .record began _ _ => began ≤ c.gen
  | .sync tripped => tripped = true → c.ring.Halting
  | .pendingAck _ _ r => r = rearm
  | _ => True

/-- A place that only the satellite's hook has, and one that only the owner's commands have. -/
def Thread.ofSat : Thread → Prop
  | .rearm _ _ _ _ | .ack _ _ _ => True
  | _ => False

def Thread.ofOwner : Thread → Prop
  | .stamp _ _ | .post _ | .publish _ | .pending _ _ | .pendingAck _ _ _ => True
  | _ => False

/-- How many generations are issued and not in force yet. -/
def Thread.arming : Thread → ℕ
  | .post _ | .publish _ => 1
  | _ => 0

structure Inv (w : World) (hist : List Step) : Prop where
  freezeGen : w.freezeGen = w.sync.word + w.owner.thread.arming
  rearm : w.sync.rearm ≤ w.freezeGen
  ack : w.sync.ack ≤ w.sat.gen
  gens : w.owner.gen ≤ w.sync.word ∧ w.sat.gen ≤ w.sync.word
  raised : ∀ r, w.sync.raised = some r → r = w.sync.word
  owner : HookAt w.sync.word w.sync.rearm w.owner w.owner.thread ∧ ¬w.owner.thread.ofSat
  sat : HookAt w.sync.word w.sync.rearm w.sat w.sat.thread ∧ ¬w.sat.thread.ofOwner
  posted : ∀ k, Posted hist k → 0 < k ∧ k ≤ w.sync.rearm
  newest : w.sync.rearm = 0 ∨ Posted hist w.sync.rearm
  claimed : ∀ g, Raised hist g → g ≤ w.sync.word ∧ (g < w.sync.word ∨ w.sync.raised ≠ none)

section Histories

variable {hist : List Step} {x : Step} {g : ℕ}

theorem posted_snoc : Posted (hist ++ [x]) g ↔ Posted hist g ∨ x.label = .posted g := by
  simp [Posted, or_and_right, exists_or]

theorem raised_snoc : Raised (hist ++ [x]) g ↔ Raised hist g ∨ ∃ who, x.label = .raised who g := by
  simp [Raised, or_and_right, exists_or]

end Histories

/-! ## Worlds -/

namespace World

variable (w : World) (who : Who) (c : Core) (t : Thread)

@[simp] theorem setCore_sync : (w.setCore who c).sync = w.sync := by
  cases who <;> rfl

@[simp] theorem setCore_freezeGen : (w.setCore who c).freezeGen = w.freezeGen := by
  cases who <;> rfl

@[simp] theorem core_setCore : (w.setCore who c).core who = c := by
  cases who <;> rfl

@[simp] theorem setCore_owner : (w.setCore .owner c).owner = c := rfl
@[simp] theorem setCore_owner_sat : (w.setCore .owner c).sat = w.sat := rfl
@[simp] theorem setCore_sat : (w.setCore .sat c).sat = c := rfl
@[simp] theorem setCore_sat_owner : (w.setCore .sat c).owner = w.owner := rfl

@[simp] theorem core_owner : w.core .owner = w.owner := rfl
@[simp] theorem core_sat : w.core .sat = w.sat := rfl

end World

/-! ## Moves of one core -/

theorem HookAt.mono {word word' rearm rearm' : ℕ} {c : Core} (h : HookAt word rearm c c.thread)
    (hw : word ≤ word') (hno : ¬c.thread.ofOwner) : HookAt word' rearm' c c.thread := by
  cases ht : c.thread <;> simp only [ht, HookAt, Thread.ofOwner] at h hno ⊢ <;> first | omega | tauto

/-- A place that the thread of this core can be in, with as many generations on their way. -/
def Fits (w : World) (t : Thread) : Who → Prop
  | .owner => ¬t.ofSat ∧ t.arming = w.owner.thread.arming
  | .sat => ¬t.ofOwner

/-- A core moves on, and its generation with it at most to the one in force. -/
theorem Inv.setCore {w : World} {hist : List Step} (h : Inv w hist) (who : Who) (c : Core)
    (hgen : (w.core who).gen ≤ c.gen ∧ c.gen ≤ w.sync.word)
    (hat : HookAt w.sync.word w.sync.rearm c c.thread)
    (hof : Fits w c.thread who) : Inv (w.setCore who c) hist := by
  cases who with
  | owner =>
    constructor
    case freezeGen => simpa [hof.2] using h.freezeGen
    case rearm => simpa using h.rearm
    case ack => simpa using h.ack
    case gens => exact ⟨hgen.2, h.gens.2⟩
    case raised => simpa using h.raised
    case owner => exact ⟨hat, hof.1⟩
    case sat => simpa using h.sat
    case posted => simpa using h.posted
    case newest => simpa using h.newest
    case claimed => simpa using h.claimed
  | sat =>
    constructor
    case freezeGen => simpa using h.freezeGen
    case rearm => simpa using h.rearm
    case ack => exact Nat.le_trans h.ack hgen.1
    case gens => exact ⟨h.gens.1, hgen.2⟩
    case raised => simpa using h.raised
    case owner => simpa using h.owner
    case sat => exact ⟨hat, hof⟩
    case posted => simpa using h.posted
    case newest => simpa using h.newest
    case claimed => simpa using h.claimed

theorem Inv.snoc {w : World} {hist : List Step} (h : Inv w hist) {x : Step}
    (hposted : ∀ k, x.label ≠ .posted k) (hraised : ∀ who k, x.label ≠ .raised who k) :
    Inv w (hist ++ [x]) where
  freezeGen := h.freezeGen
  rearm := h.rearm
  ack := h.ack
  gens := h.gens
  raised := h.raised
  owner := h.owner
  sat := h.sat
  posted := by simpa [posted_snoc, hposted] using h.posted
  newest := by simpa [posted_snoc, hposted] using h.newest
  claimed := by simpa [raised_snoc, hraised] using h.claimed

/-- What a step keeps, and what it does. -/
def Good (hist : List Step) (x : Step) : Prop := Inv x.after (hist ++ [x]) ∧ Proper hist x

theorem Proper.of_quiet {hist : List Step} {x : Step} (hl : x.label = .quiet)
    (hgen : x.after.sat.gen = x.before.sat.gen)
    (hw : x.after.sat.ring.windows = x.before.sat.ring.windows) : Proper hist x := by
  constructor
  case window => exact .inl ⟨hgen, hw⟩
  all_goals simp [hl]

theorem Good.of_move {hist : List Step} {x : Step} (h : Inv x.before hist) (who : Who) (c : Core)
    (hafter : x.after = x.before.setCore who c) (hl : x.label = .quiet)
    (hgen : (x.before.core who).gen ≤ c.gen ∧ c.gen ≤ x.before.sync.word)
    (hsat : who = .sat → c.gen = x.before.sat.gen ∧ c.ring.windows = x.before.sat.ring.windows)
    (hat : HookAt x.before.sync.word x.before.sync.rearm c c.thread)
    (hof : Fits x.before c.thread who) : Good hist x := by
  constructor
  · rw [hafter]
    exact (h.setCore who c hgen hat hof).snoc (by simp [hl]) (by simp [hl])
  · refine .of_quiet hl ?_ ?_
    · cases who with
      | owner => simp [hafter]
      | sat => simpa [hafter] using (hsat rfl).1
    · cases who with
      | owner => simp [hafter]
      | sat => simpa [hafter] using (hsat rfl).2

/-- A thread's place in its hook, whichever core it runs on. -/
def Thread.ofHook (t : Thread) : Prop := ¬t.ofSat ∧ ¬t.ofOwner

theorem Thread.ofHook.arming {t : Thread} (h : t.ofHook) : t.arming = 0 := by
  cases t <;> simp_all [Thread.ofHook, Thread.ofOwner, Thread.arming]

/-- A hook goes on to its next access. -/
theorem Good.of_goto {hist : List Step} {x : Step} (h : Inv x.before hist) (who : Who) (t : Thread)
    (hafter : x.after = x.before.goto who t) (hl : x.label = .quiet)
    (hfrom : (x.before.core who).thread.ofHook) (ht : t.ofHook)
    (hat : HookAt x.before.sync.word x.before.sync.rearm (x.before.core who) t) : Good hist x := by
  refine .of_move h who { x.before.core who with thread := t } hafter hl ?_ ?_ ?_ ?_
  · cases who with
    | owner => exact ⟨Nat.le_refl _, h.gens.1⟩
    | sat => exact ⟨Nat.le_refl _, h.gens.2⟩
  · rintro rfl
    exact ⟨rfl, rfl⟩
  · cases t <;> exact hat
  · cases who with
    | owner =>
      refine ⟨ht.1, ?_⟩
      rw [Thread.ofHook.arming ht]
      exact (Thread.ofHook.arming hfrom).symm
    | sat => exact ht.2

theorem Inv.core_gen {w : World} {hist : List Step} (h : Inv w hist) (who : Who) :
    (w.core who).gen ≤ w.sync.word := by
  cases who with
  | owner => exact h.gens.1
  | sat => exact h.gens.2

theorem Inv.hookAt {w : World} {hist : List Step} (h : Inv w hist) (who : Who) :
    HookAt w.sync.word w.sync.rearm (w.core who) (w.core who).thread := by
  cases who with
  | owner => exact h.owner.1
  | sat => exact h.sat.1

theorem Near.core {w : World} (h : Near w) (who : Who) :
    w.freezeGen < (w.core who).gen + genMod / 2 := by
  cases who with
  | owner => exact h.owner
  | sat => exact h.sat

theorem Inv.word_le {w : World} {hist : List Step} (h : Inv w hist) :
    w.sync.word ≤ w.freezeGen := by
  have := h.freezeGen
  omega

theorem Inv.is_sat {w : World} {hist : List Step} (h : Inv w hist) {who : Who}
    (hof : (w.core who).thread.ofSat) : who = .sat := by
  cases who with
  | owner => exact absurd hof h.owner.2
  | sat => rfl

theorem Inv.is_owner {w : World} {hist : List Step} (h : Inv w hist) {who : Who}
    (hof : (w.core who).thread.ofOwner) : who = .owner := by
  cases who with
  | owner => rfl
  | sat => exact absurd hof h.sat.2

/-- The generation in force and the one that a core is in, by their low bits. -/
theorem Inv.genSame_core {w : World} {hist : List Step} (h : Inv w hist) (hn : Near w) (who : Who) :
    genSame w.sync.word (w.core who).gen = true ↔ w.sync.word = (w.core who).gen := by
  have hnear := hn.core who
  have hword := h.word_le
  refine genSame_iff ?_ (h.core_gen who)
  simp only [genMod] at hnear ⊢
  omega

theorem Good.of_same {hist : List Step} {x : Step} (h : Inv x.before hist)
    (hafter : x.after = x.before) (hl : x.label = .quiet) : Good hist x := by
  refine .of_move h .sat x.before.sat ?_ hl ⟨Nat.le_refl _, h.gens.2⟩ (fun _ => ⟨rfl, rfl⟩) h.sat.1
    h.sat.2
  rw [hafter]
  rfl

/-! ## Hooks -/

section Hooks

variable {w : World} {hist : List Step} {who : Who}

theorem good_hook (h : Inv w hist) (d : Dispatch) :
    Good hist (Trace.entry World.step w (.hook who d)) := by
  by_cases ht : (w.core who).thread = .idle
  · refine .of_goto h who (.word w.sync.word d) ?_ ?_ ?_ ?_ (Nat.le_refl _)
    · simp [World.step, ht]
    · simp [World.step, ht]
    · simp [ht, Thread.ofHook, Thread.ofSat, Thread.ofOwner]
    · simp [Thread.ofHook, Thread.ofSat, Thread.ofOwner]
  · -- a thread that is at work takes no other
    have hstep : World.step w (.hook who d) = (w, .quiet) := by
      cases hthread : (w.core who).thread <;> simp_all [World.step]
    exact .of_same h (congrArg Prod.fst hstep) (congrArg Prod.snd hstep)

variable {now : UInt32} {began g : ℕ} {d : Dispatch} {s : UInt32} {a : Adoption}

theorem good_word (h : Inv w hist) (ht : (w.core who).thread = .word began d) :
    Good hist (Trace.entry World.step w (.step who now)) := by
  have hat := h.hookAt who
  rw [ht] at hat
  refine .of_goto h who (.since began d w.sync.word) ?_ ?_ ?_ ?_ ?_
  · simp [World.step, World.stepThread, ht]
  · simp [World.step, World.stepThread, ht]
  · simp [ht, Thread.ofHook, Thread.ofSat, Thread.ofOwner]
  · simp [Thread.ofHook, Thread.ofSat, Thread.ofOwner]
  · exact ⟨hat, h.core_gen who, Nat.le_refl _⟩

theorem good_since (h : Inv w hist) (ht : (w.core who).thread = .since began d g) :
    Good hist (Trace.entry World.step w (.step who now)) := by
  have hat := h.hookAt who
  rw [ht] at hat
  refine .of_goto h who (.again began d g (w.sync.since (g % 2))) ?_ ?_ ?_ ?_ hat
  · simp [World.step, World.stepThread, ht]
  · simp [World.step, World.stepThread, ht]
  · simp [ht, Thread.ofHook, Thread.ofSat, Thread.ofOwner]
  · simp [Thread.ofHook, Thread.ofSat, Thread.ofOwner]

theorem good_again (h : Inv w hist) (hn : Near w)
    (ht : (w.core who).thread = .again began d g s) :
    Good hist (Trace.entry World.step w (.step who now)) := by
  have hat := h.hookAt who
  rw [ht] at hat
  obtain ⟨hbegan, hgen, hword⟩ := hat
  have hfrom : (w.core who).thread.ofHook := by
    simp [ht, Thread.ofHook, Thread.ofSat, Thread.ofOwner]
  have hnear := hn.core who
  have hle := h.word_le
  by_cases hmoved : genSame w.sync.word g = false
  · -- the word has moved on: once more
    have hstep : w.step (.step who now) = (w.goto who (.word began d), .quiet) := by
      simp [World.step, World.stepThread, ht, hmoved]
    refine .of_goto h who (.word began d) (congrArg Prod.fst hstep) (congrArg Prod.snd hstep) hfrom
      ?_ ?_
    · simp [Thread.ofHook, Thread.ofSat, Thread.ofOwner]
    · exact Nat.le_trans hbegan hword
  have hsame : genSame g (w.core who).gen = true ↔ g = (w.core who).gen := by
    refine genSame_iff ?_ hgen
    simp only [genMod] at hnear ⊢
    omega
  by_cases hcur : g = (w.core who).gen
  · have hstep : w.step (.step who now) = (w.goto who (.record began d .none), .quiet) := by
      simp [World.step, World.stepThread, ht, hmoved, hsame.mpr hcur]
    refine .of_goto h who (.record began d .none) (congrArg Prod.fst hstep)
      (congrArg Prod.snd hstep) hfrom ?_ ?_
    · simp [Thread.ofHook, Thread.ofSat, Thread.ofOwner]
    · show began ≤ (w.core who).gen
      exact hcur ▸ hbegan
  have hother : genSame g (w.core who).gen = false := by
    simpa [hcur] using hsame
  cases who with
  | owner =>
    refine .of_move h .owner
      { w.owner with gen := g, since := s, thread := .record began d .adopted } ?_ ?_
      ⟨hgen, hword⟩ (by simp) hbegan ?_
    · simp_all [World.step, World.stepThread]
    · simp_all [World.step, World.stepThread]
    · simp_all [Fits, Thread.ofSat, Thread.arming]
  | sat =>
    refine .of_move h .sat { w.sat with thread := .rearm began d g s } ?_ ?_
      ⟨Nat.le_refl _, h.gens.2⟩ (fun _ => ⟨rfl, rfl⟩) ?_ ?_
    · simp_all [World.step, World.stepThread, World.goto]
    · simp_all [World.step, World.stepThread, World.goto]
    · exact ⟨hbegan, Nat.lt_of_le_of_ne hgen (Ne.symm hcur), hword⟩
    · simp [Fits, Thread.ofOwner]

/-- The satellite takes up a generation. -/
theorem good_rearm (h : Inv w hist)
    (hc : Careful hist (Trace.entry World.step w (.step .sat now)))
    (ht : w.sat.thread = .rearm began d g s) :
    Good hist (Trace.entry World.step w (.step .sat now)) := by
  obtain ⟨hbegan, hgen, hword⟩ : began ≤ g ∧ w.sat.gen < g ∧ g ≤ w.sync.word := by
    have hat := h.sat.1
    rwa [ht] at hat
  have hafter : genAfter w.sync.rearm w.sat.gen = true ↔ w.sat.gen < w.sync.rearm :=
    genAfter_iff h.rearm (Nat.le_trans h.gens.2 h.word_le) hc.near.rearm hc.near.sat
  have hrestart : genAfter w.sync.rearm w.sat.gen = true ↔
      ∃ k, Posted hist k ∧ w.sat.gen < k ∧ k ≤ g := by
    rw [hafter]
    constructor
    · intro hlt
      by_cases hahead : g < w.sync.rearm
      · exact hc.order now g rfl (by simp [World.readsAhead, ht, hahead])
      · refine ⟨w.sync.rearm, ?_, hlt, Nat.le_of_not_lt hahead⟩
        exact h.newest.resolve_left (by omega)
    · rintro ⟨k, hk, hlt, -⟩
      exact Nat.lt_of_lt_of_le hlt (h.posted k hk).2
  have hstep : w.step (.step .sat now) =
      (w.setCore .sat
        { gen := g, since := s,
          ring := if genAfter w.sync.rearm w.sat.gen then w.sat.ring.start else w.sat.ring,
          thread := .ack began d
            (if genAfter w.sync.rearm w.sat.gen then .restarted else .adopted) },
        .adopted w.sat.gen g (genAfter w.sync.rearm w.sat.gen)) := by
    simp only [World.step, World.stepThread, World.core_sat, ht]
    rfl
  constructor
  · simp only [Trace.entry_after, hstep]
    refine Inv.snoc ?_ (by simp [hstep]) (by simp [hstep])
    refine h.setCore .sat _ ⟨Nat.le_of_lt hgen, hword⟩ hbegan ?_
    simp [Fits, Thread.ofOwner]
  · constructor
    case restart =>
      intro old new restarted hl
      simp only [Trace.entry_label, hstep, Label.adopted.injEq] at hl
      obtain ⟨rfl, rfl, rfl⟩ := hl
      exact hrestart
    case window =>
      refine .inr ⟨genAfter w.sync.rearm w.sat.gen, ?_, ?_, ?_⟩
      · simp [hstep]
      · simpa [hstep] using hgen
      · simp only [Trace.entry_after, Trace.entry_before, hstep, World.setCore_sat]
        split <;> simp [Ring.start]
    all_goals simp [hstep]

theorem good_ack (h : Inv w hist) (ht : w.sat.thread = .ack began d a) :
    Good hist (Trace.entry World.step w (.step .sat now)) := by
  have hat := h.sat.1
  rw [ht] at hat
  have hstep : w.step (.step .sat now) =
      ({ w.goto .sat (.record began d a) with sync := { w.sync with ack := w.sat.gen } },
        .quiet) := by
    simp [World.step, World.stepThread, ht]
  constructor
  · simp only [Trace.entry_after, hstep]
    have hmove := h.setCore .sat { w.sat with thread := .record began d a }
      ⟨Nat.le_refl _, h.gens.2⟩ hat (by simp [Fits, Thread.ofOwner])
    have hacked : Inv { w.goto .sat (.record began d a) with
        sync := { w.sync with ack := w.sat.gen } } hist :=
      { hmove with ack := Nat.le_refl _ }
    exact hacked.snoc (by simp [hstep]) (by simp [hstep])
  · exact .of_quiet (by simp [hstep]) (by simp [hstep, World.goto]) (by simp [hstep, World.goto])

theorem good_record (h : Inv w hist) (ht : (w.core who).thread = .record began d a) :
    Good hist (Trace.entry World.step w (.step who now)) := by
  have hat := h.hookAt who
  rw [ht] at hat
  have hfrom : (w.core who).thread.ofHook := by
    simp [ht, Thread.ofHook, Thread.ofSat, Thread.ofOwner]
  by_cases hstale : (w.core who).stale d a = .discarded
  · have hstep : w.step (.step who now) = (w.goto who (.sync false), .quiet) := by
      simp [World.step, World.stepThread, ht, hstale]
    refine .of_goto h who (.sync false) (congrArg Prod.fst hstep) (congrArg Prod.snd hstep) hfrom
      ?_ ?_
    · simp [Thread.ofHook, Thread.ofSat, Thread.ofOwner]
    · simp [HookAt]
  · have hstep : w.step (.step who now) =
        (w.setCore who
          { ((w.core who).recordDispatch d).1 with
            thread := .sync (((w.core who).recordDispatch d).2 &&
              decide ((w.core who).stale d a ≠ .predates)) },
          if who = .sat then .recorded began else .quiet) := by
      simp only [World.step, World.stepThread, ht]
    have hrec := windows_recordDispatch (w.core who) d
    constructor
    · simp only [Trace.entry_after, hstep]
      refine Inv.snoc (h.setCore who _ ?_ ?_ ?_) ?_ ?_
      · simp only [hrec.2]
        exact ⟨Nat.le_refl _, h.core_gen who⟩
      · intro hsync
        rw [Bool.and_eq_true] at hsync
        exact halting_recordDispatch _ _ hsync.1
      · cases who with
        | owner =>
          exact ⟨by simp [Thread.ofSat], (Thread.ofHook.arming hfrom).symm⟩
        | sat => simp [Fits, Thread.ofOwner]
      · cases who <;> simp [hstep]
      · cases who <;> simp [hstep]
    · cases who with
      | owner => exact .of_quiet (by simp [hstep]) (by simp [hstep]) (by simp [hstep])
      | sat =>
        constructor
        case record =>
          intro k hl n hposted hn
          simp only [Trace.entry_label, hstep, if_true, Label.recorded.injEq] at hl
          exact Nat.le_trans (hl ▸ hn) hat
        case window =>
          left
          simpa [hstep] using hrec.symm
        all_goals simp [hstep]

theorem good_sync_claim (h : Inv w hist) (hn : Near w)
    (ht : (w.core who).thread = .sync true) :
    Good hist (Trace.entry World.step w (.step who now)) := by
  have hhalts : (w.core who).ring.Halting := by
    have hat := h.hookAt who
    rw [ht] at hat
    exact hat rfl
  have hfrom : (w.core who).thread.ofHook := by
    simp [ht, Thread.ofHook, Thread.ofSat, Thread.ofOwner]
  have hsame := h.genSame_core hn who
  have hfits : Fits w .idle who := by
    cases who with
    | owner => exact ⟨by simp [Thread.ofSat], (Thread.ofHook.arming hfrom).symm⟩
    | sat => simp [Fits, Thread.ofOwner]
  by_cases hwins : genSame w.sync.word (w.core who).gen ∧ w.sync.raised = none
  · have hgen := hsame.mp hwins.1
    have hstep : w.step (.step who now) =
        ({ w.goto who .idle with sync := { w.sync with raised := some (w.core who).gen } },
          .raised who (w.core who).gen) := by
      simp only [World.step, World.stepThread, ht]
      rw [if_pos hwins]
    have hmove := h.setCore who { w.core who with thread := .idle }
      ⟨Nat.le_refl _, h.core_gen who⟩ trivial hfits
    have hposted (k : ℕ) : Posted (hist ++ [Trace.entry World.step w (.step who now)]) k ↔
        Posted hist k := by
      simp [posted_snoc, hstep]
    constructor
    · simp only [Trace.entry_after, hstep]
      constructor
      case freezeGen => simpa [World.goto] using hmove.freezeGen
      case rearm => simpa [World.goto] using hmove.rearm
      case ack => simpa [World.goto] using hmove.ack
      case gens => simpa [World.goto] using hmove.gens
      case raised =>
        intro r hr
        simp only [Option.some.injEq] at hr
        simp [← hr, hgen]
      case owner => simpa [World.goto] using hmove.owner
      case sat => simpa [World.goto] using hmove.sat
      case posted =>
        intro k hk
        simpa [World.goto] using h.posted k ((hposted k).mp hk)
      case newest => simpa [World.goto, hposted] using h.newest
      case claimed =>
        intro g hg
        rw [raised_snoc] at hg
        refine ⟨?_, .inr (by simp)⟩
        rcases hg with hg | ⟨w', hg⟩
        · simpa [World.goto] using (h.claimed g hg).1
        · simp only [Trace.entry_label, hstep, Label.raised.injEq] at hg
          simp [← hg.2, hgen]
    · constructor
      case raise =>
        intro w' g hl
        simp only [Trace.entry_label, hstep, Label.raised.injEq] at hl
        exact hl.2 ▸ hgen.symm
      case window =>
        left
        cases who <;> simp [hstep, World.goto]
      all_goals simp [hstep]
  · have hstep : w.step (.step who now) = (w.goto who .idle, .synced who none) := by
      simp only [World.step, World.stepThread, ht]
      rw [if_neg hwins]
    constructor
    · simp only [Trace.entry_after, hstep]
      refine Inv.snoc ?_ (by simp [hstep]) (by simp [hstep])
      exact h.setCore who _ ⟨Nat.le_refl _, h.core_gen who⟩ trivial hfits
    · constructor
      case window =>
        left
        cases who <;> simp [hstep, World.goto]
      case claim =>
        intro w' found hl hraised hword
        simp only [Trace.entry_label, hstep, Label.synced.injEq] at hl
        obtain ⟨rfl, -⟩ := hl
        simpa [hstep, World.goto] using hhalts
      all_goals simp [hstep]

theorem good_sync_look (h : Inv w hist) (hn : Near w)
    (ht : (w.core who).thread = .sync false) :
    Good hist (Trace.entry World.step w (.step who now)) := by
  have hfrom : (w.core who).thread.ofHook := by
    simp [ht, Thread.ofHook, Thread.ofSat, Thread.ofOwner]
  have hsame := h.genSame_core hn who
  have hfits : Fits w .idle who := by
    cases who with
    | owner => exact ⟨by simp [Thread.ofSat], (Thread.ofHook.arming hfrom).symm⟩
    | sat => simp [Fits, Thread.ofOwner]
  by_cases hfound : ∃ r, w.sync.raised = some r ∧ genSame w.sync.word (w.core who).gen
  · obtain ⟨r, hr, hg⟩ := hfound
    have hstep : w.step (.step who now) =
        (w.setCore who
          { w.core who with ring := (w.core who).ring.trigger, thread := .idle },
          .synced who (some r)) := by
      simp only [World.step, World.stepThread, ht, hr]
      rw [if_pos hg]
    constructor
    · simp only [Trace.entry_after, hstep]
      refine Inv.snoc ?_ (by simp [hstep]) (by simp [hstep])
      exact h.setCore who _ ⟨Nat.le_refl _, h.core_gen who⟩ trivial hfits
    · constructor
      case freeze =>
        intro w' g hl
        simp only [Trace.entry_label, hstep, Label.synced.injEq, Option.some.injEq] at hl
        obtain ⟨rfl, rfl⟩ := hl
        have hword := h.raised r hr
        exact ⟨hword.trans (hsame.mp hg), hword⟩
      case window =>
        left
        cases who <;> simp [hstep]
      case claim =>
        intro w' found hl hraised hword
        simp only [Trace.entry_label, hstep, Label.synced.injEq] at hl
        obtain ⟨rfl, -⟩ := hl
        simpa [hstep] using Ring.halting_trigger _
      all_goals simp [hstep]
  · have hstep : w.step (.step who now) = (w.goto who .idle, .synced who none) := by
      simp only [World.step, World.stepThread, ht]
      split
      · rename_i r hr
        rw [if_neg fun hg => hfound ⟨r, hr, hg⟩]
      · rfl
    constructor
    · simp only [Trace.entry_after, hstep]
      refine Inv.snoc ?_ (by simp [hstep]) (by simp [hstep])
      exact h.setCore who _ ⟨Nat.le_refl _, h.core_gen who⟩ trivial hfits
    · constructor
      case window =>
        left
        cases who <;> simp [hstep, World.goto]
      case claim =>
        intro w' found hl hraised hword
        simp only [Trace.entry_label, hstep, Label.synced.injEq] at hl
        obtain ⟨rfl, -⟩ := hl
        -- a claim of the generation in force would have been found
        simp only [Trace.entry_before] at hraised hword
        obtain hlt | hsome := (h.claimed _ hraised).2
        · omega
        · obtain ⟨r, hr⟩ := Option.ne_none_iff_exists'.mp hsome
          exact absurd ⟨r, hr, hsame.mpr hword.symm⟩ hfound
      all_goals simp [hstep]

end Hooks

/-! ## Commands -/

section Commands

variable {w : World} {hist : List Step} {now : UInt32} {sat own : Bool} {op : Op}

theorem posted_quiet {x : Step} (hl : x.label = .quiet) (k : ℕ) :
    Posted (hist ++ [x]) k ↔ Posted hist k := by
  simp [posted_snoc, hl]

theorem raised_quiet {x : Step} (hl : x.label = .quiet) (k : ℕ) :
    Raised (hist ++ [x]) k ↔ Raised hist k := by
  simp [raised_snoc, hl]

/-- The owner goes from one access of a command to the next. -/
theorem good_command (h : Inv w hist) {x : Step} (hx : x.before = w) (t : Thread)
    (hafter : x.after = w.goto .owner t) (hl : x.label = .quiet)
    (hat : HookAt w.sync.word w.sync.rearm w.owner t)
    (hof : ¬t.ofSat ∧ t.arming = w.owner.thread.arming) : Good hist x := by
  subst hx
  refine .of_move h .owner { x.before.owner with thread := t } hafter hl
    ⟨Nat.le_refl _, h.gens.1⟩ (by simp) ?_ hof
  cases t <;> exact hat

/-- The next generation is issued. -/
theorem good_stamp (h : Inv w hist) (ht : w.owner.thread = .stamp sat own) :
    Good hist (Trace.entry World.step w (.step .owner now)) := by
  have hword : w.freezeGen = w.sync.word := by
    simpa [ht, Thread.arming] using h.freezeGen
  have hstep : w.step (.step .owner now) =
      ({ w with
          sync := { w.sync with
            since := Function.update w.sync.since ((w.freezeGen + 1) % 2) now },
          owner := { w.owner with thread := if sat then .post own else .publish own },
          freezeGen := w.freezeGen + 1 }, .quiet) := by
    simp only [World.step, World.stepThread, World.core_owner, ht]
    rfl
  have hl : (Trace.entry World.step w (.step .owner now)).label = .quiet := by
    simp [hstep]
  constructor
  · simp only [Trace.entry_after, hstep]
    constructor
    case freezeGen => cases sat <;> simp [Thread.arming, hword]
    case rearm => exact Nat.le_succ_of_le h.rearm
    case ack => exact h.ack
    case gens => exact h.gens
    case raised => exact h.raised
    case owner => cases sat <;> simp [HookAt, Thread.ofSat]
    case sat => exact h.sat
    case posted => exact fun k hk => h.posted k ((posted_quiet hl k).mp hk)
    case newest => exact h.newest.imp_right (posted_quiet hl _).mpr
    case claimed => exact fun g hg => h.claimed g ((raised_quiet hl g).mp hg)
  · exact .of_quiet hl (by simp [hstep]) (by simp [hstep])

theorem good_post (h : Inv w hist) (ht : w.owner.thread = .post own) :
    Good hist (Trace.entry World.step w (.step .owner now)) := by
  have hissued : w.freezeGen = w.sync.word + 1 := by
    simpa [ht, Thread.arming] using h.freezeGen
  have hstep : w.step (.step .owner now) =
      ({ w with
          sync := { w.sync with rearm := w.freezeGen },
          owner := { w.owner with thread := .publish own } }, .posted w.freezeGen) := by
    simp only [World.step, World.stepThread, World.core_owner, ht]
    rfl
  have hposted (k : ℕ) : Posted (hist ++ [Trace.entry World.step w (.step .owner now)]) k ↔
      Posted hist k ∨ w.freezeGen = k := by
    simp [posted_snoc, hstep]
  constructor
  · simp only [Trace.entry_after, hstep]
    constructor
    case freezeGen => exact hissued
    case rearm => exact Nat.le_refl _
    case ack => exact h.ack
    case gens => exact h.gens
    case raised => exact h.raised
    case owner => exact ⟨trivial, by simp [Thread.ofSat]⟩
    case sat => exact ⟨h.sat.1.mono (Nat.le_refl _) h.sat.2, h.sat.2⟩
    case posted =>
      intro k hk
      rcases (hposted k).mp hk with hk | rfl
      · exact ⟨(h.posted k hk).1, Nat.le_trans (h.posted k hk).2 h.rearm⟩
      · exact ⟨by omega, Nat.le_refl _⟩
    case newest => exact .inr ((hposted _).mpr (.inr rfl))
    case claimed =>
      intro g hg
      refine h.claimed g ?_
      simpa [raised_snoc, hstep] using hg
  · constructor
    case window => exact .inl ⟨by simp [hstep], by simp [hstep]⟩
    all_goals simp [hstep]

/-- The generation comes into force. -/
theorem good_publish (h : Inv w hist) (ht : w.owner.thread = .publish own) :
    Good hist (Trace.entry World.step w (.step .owner now)) := by
  have hissued : w.freezeGen = w.sync.word + 1 := by
    simpa [ht, Thread.arming] using h.freezeGen
  have hstep : w.step (.step .owner now) =
      ({ w with
          sync := { w.sync with word := w.freezeGen, raised := none },
          owner := { w.owner with
            ring := if own then w.owner.ring.start else w.owner.ring,
            thread := .idle } }, .quiet) := by
    simp only [World.step, World.stepThread, World.core_owner, ht]
  have hl : (Trace.entry World.step w (.step .owner now)).label = .quiet := by
    simp [hstep]
  have hword : w.sync.word ≤ w.freezeGen := h.word_le
  constructor
  · simp only [Trace.entry_after, hstep]
    constructor
    case freezeGen => rfl
    case rearm => exact h.rearm
    case ack => exact h.ack
    case gens => exact ⟨Nat.le_trans h.gens.1 hword, Nat.le_trans h.gens.2 hword⟩
    case raised => simp
    case owner => exact ⟨trivial, by simp [Thread.ofSat]⟩
    case sat => exact ⟨h.sat.1.mono hword h.sat.2, h.sat.2⟩
    case posted => exact fun k hk => h.posted k ((posted_quiet hl k).mp hk)
    case newest => exact h.newest.imp_right (posted_quiet hl _).mpr
    case claimed =>
      intro g hg
      have hle := (h.claimed g ((raised_quiet hl g).mp hg)).1
      have hlt : g < w.freezeGen := by omega
      exact ⟨Nat.le_of_lt hlt, .inl hlt⟩
  · exact .of_quiet hl (by simp [hstep]) (by simp [hstep])

theorem good_pending (h : Inv w hist) (ht : w.owner.thread = .pending op own) :
    Good hist (Trace.entry World.step w (.step .owner now)) := by
  refine good_command h rfl (.pendingAck op own w.sync.rearm) ?_ ?_ rfl ?_
  · simp [World.step, World.stepThread, ht]
  · simp [World.step, World.stepThread, ht]
  · simp [ht, Thread.ofSat, Thread.arming]

/-- The owner's own ring is stopped, between two of its hooks. -/
theorem good_serveOwn (op : Op) (own : Bool) (h : Inv w hist) {x : Step} (hx : x.before = w)
    (hafter : x.after = (w.goto .owner .idle).serveOwn op own) (hl : x.label = .quiet)
    (ht : w.owner.thread.arming = 0) : Good hist x := by
  have howner : (w.goto .owner .idle).serveOwn op own = w.setCore .owner
      { w.owner with ring := if own ∧ op = .stop then w.owner.ring.stop else w.owner.ring,
                     thread := .idle } := by
    simp only [World.serveOwn]
    split <;> rfl
  subst hx
  exact .of_move h .owner _ (hafter.trans howner) hl ⟨Nat.le_refl _, h.gens.1⟩ (by simp) trivial
    ⟨by simp [Thread.ofSat], ht.symm⟩

/-- The satellite's ring is stopped or read, when it has taken up every re-arm of it. -/
theorem good_pendingAck (h : Inv w hist) (hn : Near w) {r : ℕ}
    (ht : w.owner.thread = .pendingAck op own r) :
    Good hist (Trace.entry World.step w (.step .owner now)) := by
  have hr : r = w.sync.rearm := by
    have hat := h.owner.1
    rwa [ht] at hat
  subst hr
  have harming : w.owner.thread.arming = 0 := by
    simp [ht, Thread.arming]
  have hack : w.sync.ack ≤ w.freezeGen :=
    Nat.le_trans h.ack (Nat.le_trans h.gens.2 h.word_le)
  have hopen := genAfter_iff h.rearm hack hn.rearm hn.ack
  by_cases hpending : w.sync.ack < w.sync.rearm
  · have hstep : w.step (.step .owner now) = (w.goto .owner .idle, .quiet) := by
      simp [World.step, World.stepThread, ht, hopen.mpr hpending]
    exact good_command h rfl .idle (congrArg Prod.fst hstep) (congrArg Prod.snd hstep) trivial
      ⟨by simp [Thread.ofSat], harming.symm⟩
  have htaken (k : ℕ) (hk : Posted hist k) : k ≤ w.sat.gen :=
    Nat.le_trans (h.posted k hk).2 (Nat.le_trans (Nat.le_of_not_lt hpending) h.ack)
  have hstep : w.step (.step .owner now) =
      (((w.goto .owner .idle).serve op).1.serveOwn op own, ((w.goto .owner .idle).serve op).2) := by
    have hshut : genAfter w.sync.rearm w.sync.ack = false := by
      simpa [hpending] using hopen
    simp [World.step, World.stepThread, ht, hshut]
  have hidle : Inv (w.goto .owner .idle) hist :=
    h.setCore .owner { w.owner with thread := .idle } ⟨Nat.le_refl _, h.gens.1⟩ trivial
      ⟨by simp [Thread.ofSat], harming.symm⟩
  cases op with
  | stop =>
    have hserved : ((w.goto .owner .idle).serve .stop).1.serveOwn .stop own =
        ((w.goto .owner .idle).setCore .sat { w.sat with ring := w.sat.ring.stop }).setCore .owner
          { w.owner with ring := if own then w.owner.ring.stop else w.owner.ring,
                         thread := .idle } := by
      cases own <;> rfl
    have hsat : HookAt w.sync.word w.sync.rearm { w.sat with ring := w.sat.ring.stop }
        w.sat.thread := by
      have hat := h.sat.1
      cases hthread : w.sat.thread <;> rw [hthread] at hat <;> first
        | exact hat
        | exact fun _ => Ring.halting_stop _
    constructor
    · simp only [Trace.entry_after, hstep, hserved]
      refine Inv.snoc ?_ (by simp [hstep, World.serve]) (by simp [hstep, World.serve])
      have hstopped := hidle.setCore .sat { w.sat with ring := w.sat.ring.stop }
        ⟨Nat.le_refl _, h.gens.2⟩ hsat h.sat.2
      exact hstopped.setCore .owner
        { w.owner with ring := if own then w.owner.ring.stop else w.owner.ring, thread := .idle }
        ⟨Nat.le_refl _, h.gens.1⟩ trivial ⟨by simp [Thread.ofSat], rfl⟩
    · constructor
      case window => exact .inl ⟨by simp [hstep, hserved], by simp [hstep, hserved]⟩
      case touch => exact fun _ _ => htaken
      all_goals simp [hstep, World.serve]
  | dump =>
    have hafter : (w.step (.step .owner now)).1 = w.goto .owner .idle := by
      rw [hstep]
      simp only [World.serve]
      split <;> simp [World.serveOwn]
    have hlabel : (w.step (.step .owner now)).2 = .touched .dump ∨
        (w.step (.step .owner now)).2 = .quiet := by
      rw [hstep]
      simp only [World.serve]
      split <;> simp
    constructor
    · simp only [Trace.entry_after, hafter]
      refine hidle.snoc ?_ ?_
      · rcases hlabel with hl | hl <;> simp [hl]
      · rcases hlabel with hl | hl <;> simp [hl]
    · constructor
      case window => exact .inl ⟨by simp [hafter, World.goto], by simp [hafter, World.goto]⟩
      case touch => exact fun _ _ => htaken
      all_goals rcases hlabel with hl | hl <;> simp [hl]

theorem good_arm (h : Inv w hist) : Good hist (Trace.entry World.step w (.arm sat own)) := by
  by_cases ht : w.owner.thread = .idle
  · by_cases hany : sat = true ∨ own = true
    · refine good_command h rfl (.stamp sat own) ?_ ?_ trivial ?_
      · simp [World.step, ht, hany]
      · simp [World.step, ht, hany]
      · simp [ht, Thread.ofSat, Thread.arming]
    · exact .of_same h (by simp [World.step, ht, hany]) (by simp [World.step, ht, hany])
  · have hstep : w.step (.arm sat own) = (w, .quiet) := by
      cases hthread : w.owner.thread <;> simp_all [World.step]
    exact .of_same h (congrArg Prod.fst hstep) (congrArg Prod.snd hstep)

theorem good_host (h : Inv w hist) : Good hist (Trace.entry World.step w (.host op sat own)) := by
  by_cases ht : w.owner.thread = .idle
  · have harming : w.owner.thread.arming = 0 := by
      simp [ht, Thread.arming]
    cases sat with
    | true =>
      refine good_command h rfl (.pending op own) ?_ ?_ trivial ?_
      · simp [World.step, ht]
      · simp [World.step, ht]
      · simp [ht, Thread.ofSat, Thread.arming]
    | false =>
      have hidle : w.goto .owner .idle = w := by
        rw [World.goto, World.core_owner, ← ht]
        rfl
      refine good_serveOwn op own h rfl ?_ ?_ harming
      · simp [World.step, ht, hidle]
      · simp [World.step, ht]
  · have hstep : w.step (.host op sat own) = (w, .quiet) := by
      cases hthread : w.owner.thread <;> simp_all [World.step]
    exact .of_same h (congrArg Prod.fst hstep) (congrArg Prod.snd hstep)

end Commands

/-! ## Runs -/

/-- Two rings, before anything was armed. -/
def World.fresh (owner sat : Ring) : World := { owner := { ring := owner }, sat := { ring := sat } }

theorem inv_fresh (owner sat : Ring) : Inv (World.fresh owner sat) [] := by
  constructor <;> simp [World.fresh, HookAt, Thread.arming, Thread.ofSat, Thread.ofOwner, Posted,
    Raised]

theorem good_step {w : World} {hist : List Step} (h : Inv w hist) (e : Event)
    (hc : Careful hist (Trace.entry World.step w e)) : Good hist (Trace.entry World.step w e) := by
  have hn : Near w := hc.near
  cases e with
  | hook who d => exact good_hook h d
  | arm sat own => exact good_arm h
  | host op sat own => exact good_host h
  | step who now =>
    cases ht : (w.core who).thread with
    | idle =>
      have hstep : w.step (.step who now) = (w, .quiet) := by
        simp [World.step, World.stepThread, ht]
      exact .of_same h (congrArg Prod.fst hstep) (congrArg Prod.snd hstep)
    | word began d => exact good_word h ht
    | since began d g => exact good_since h ht
    | again began d g s => exact good_again h hn ht
    | record began d a => exact good_record h ht
    | sync tripped =>
      cases tripped with
      | true => exact good_sync_claim h hn ht
      | false => exact good_sync_look h hn ht
    | rearm began d g s =>
      obtain rfl := h.is_sat (by rw [ht]; trivial)
      exact good_rearm h hc ht
    | ack began d a =>
      obtain rfl := h.is_sat (by rw [ht]; trivial)
      exact good_ack h ht
    | stamp sat own =>
      obtain rfl := h.is_owner (by rw [ht]; trivial)
      exact good_stamp h ht
    | post own =>
      obtain rfl := h.is_owner (by rw [ht]; trivial)
      exact good_post h ht
    | publish own =>
      obtain rfl := h.is_owner (by rw [ht]; trivial)
      exact good_publish h ht
    | pending op own =>
      obtain rfl := h.is_owner (by rw [ht]; trivial)
      exact good_pending h ht
    | pendingAck op own r =>
      obtain rfl := h.is_owner (by rw [ht]; trivial)
      exact good_pendingAck h hn ht

/-- In every run whose generations are near and in which the satellite reads no re-arm ahead of the
generation that it takes up, freezes and restarts keep to their windows. -/
theorem windows_kept (owner sat : Ring) (es : List Event)
    (hc : Trace.Along Careful (Trace.history World.step (World.fresh owner sat) es)) :
    Trace.Along Proper (Trace.history World.step (World.fresh owner sat) es) :=
  (Trace.run_along (inv_fresh owner sat) (fun _ e h hx => good_step h e hx) es hc).2

def benchRing : Ring := { cap := 4, mode := .ring, prePct := 50 }

def benchDispatch (overran : Bool) : Dispatch := { start := 9, overran := overran, anchor := false }

/-- Both are armed, the satellite overruns its budget, and the owner sees it. -/
def benchTrip : List Event :=
  .arm true true :: List.replicate 3 (.step .owner 5) ++
    .hook .sat (benchDispatch true) :: List.replicate 7 (.step .sat 0) ++
    .hook .owner (benchDispatch false) :: List.replicate 5 (.step .owner 0)

theorem windows_kept_trip :
    Trace.Along Proper (Trace.history World.step (World.fresh benchRing benchRing) benchTrip) ∧
      ((Trace.history World.step (World.fresh benchRing benchRing) benchTrip).map (·.label)).filter
          (· ≠ .quiet) =
        [.posted 1, .adopted 0 1 true, .recorded 1, .raised .sat 1, .synced .owner (some 1)] := by
  constructor
  · refine windows_kept benchRing benchRing benchTrip ?_
    have hall : ∀ x ∈ Trace.history World.step (World.fresh benchRing benchRing) benchTrip,
        Abreast x := by decide
    exact Trace.along_of_forall fun x hx before => (hall x hx).careful before
  · decide

/-- The owner alone is armed, and while the satellite takes that up a re-arm of it is posted. -/
def benchOvertaken : List Event :=
  .arm false true :: List.replicate 2 (.step .owner 5) ++
    .hook .sat (benchDispatch false) :: List.replicate 3 (.step .sat 0) ++
    .arm true false :: List.replicate 2 (.step .owner 7)

/-- The satellite restarts for a generation that did not address it, and again for the one that
did. -/
theorem overtaken_restarts_twice :
    ¬Trace.Along Proper (Trace.history World.step (World.fresh benchRing benchRing)
        (benchOvertaken ++ [.step .sat 0])) ∧
      ((Trace.history World.step (World.fresh benchRing benchRing)
          (benchOvertaken ++ List.replicate 4 (.step .sat 0) ++ .step .owner 0 ::
            .hook .sat (benchDispatch false) :: List.replicate 4 (.step .sat 0))).map
          (·.label)).filter (· ≠ .quiet) =
        [.posted 2, .adopted 0 1 true, .recorded 1, .synced .sat none, .adopted 1 2 true] := by
  constructor
  · intro h
    obtain ⟨k, ⟨y, hy, hk⟩, hlt, hle⟩ :=
      ((h _ _ [] (Trace.history_snoc benchOvertaken (.step .sat 0))).restart 0 1 true
        (by decide)).mp rfl
    have hall : ∀ y ∈ Trace.history World.step (World.fresh benchRing benchRing) benchOvertaken,
        y.label = .quiet ∨ y.label = .posted 2 := by decide
    rcases hall y hy with hl | hl <;> rw [hk] at hl
    · simp at hl
    · simp only [Label.posted.injEq] at hl
      omega
  · decide

end BloblyEmb.Multicore
