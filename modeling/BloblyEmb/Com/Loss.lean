import Mathlib.Algebra.Order.Ring.Nat
import BloblyEmb.Com.Monitor

/-!
# The count of lost frames

The check of a frame counts what its counter skipped. Skips across a commanded silence are no loss;
they are taken off again, by a baseline that is moved while the silence lasts.
-/
namespace BloblyEmb.Com

open E2e (Status RxVerdict Layout)

/-- The counter of a frame that passes its check. -/
def counterOf (cfg : Config) (data : ℕ → UInt8) : Option UInt8 :=
  if data cfg.layout.crcPos = E2e.compute data cfg.dlc cfg.layout ∧
      data cfg.layout.counterPos &&& 0x0F < E2e.p01CounterSpan then
    some (data cfg.layout.counterPos &&& 0x0F)
  else none

/-- How many frames two counters in a row show missing. -/
def missing (last : Option UInt8) (c : UInt8) : ℕ :=
  match last with
  | none => 0
  | some l => (c.toNat + 15 - l.toNat) % 15 - 1

/-- What the counters of a history show. -/
structure Tally where
  /-- The counter of the last frame that passed its check. -/
  last : Option UInt8 := none
  /-- A commanded silence that no usable frame has ended, received with the gate on and the network
  awake. -/
  silence : Bool := false
  /-- The frames missing, those in gaps that span a silence left out. -/
  shown : ℕ := 0

def Tally.note (cfg : Config) (t : Tally) (x : Step) : Tally :=
  match x.event with
  | .sample rxOn awake => { t with silence := t.silence || !(rxOn && awake) }
  | .frame _ data =>
    match counterOf cfg data with
    | none => t
    | some c =>
      { last := some c
        silence := t.silence && !(x.before.gate.receiving && decide (t.last ≠ some c))
        shown := if t.silence then t.shown else t.shown + missing t.last c }
  | _ => t

def tally (cfg : Config) (hist : List Step) : Tally := hist.foldl (Tally.note cfg) {}

theorem tally_snoc (cfg : Config) (hist : List Step) (x : Step) :
    tally cfg (hist ++ [x]) = (tally cfg hist).note cfg x := by
  unfold tally
  rw [List.foldl_append, List.foldl_cons, List.foldl_nil]

theorem shown_note (cfg : Config) (t : Tally) (x : Step) : t.shown ≤ (t.note cfg x).shown := by
  unfold Tally.note
  split
  · exact Nat.le_refl _
  · split
    · exact Nat.le_refl _
    · dsimp only
      split
      · exact Nat.le_refl _
      · exact Nat.le_add_right _ _
  · exact Nat.le_refl _

/-! ## The check -/

/-- What the checker knows of the sequence. -/
def Follows (r : E2e.RxState) (last : Option UInt8) : Prop :=
  match last with
  | none => r.started = false
  | some l => r.started = true ∧ r.last = l ∧ l < E2e.p01CounterSpan

theorem delta_toNat {c l : UInt8} (hc : c < E2e.p01CounterSpan) (hl : l < E2e.p01CounterSpan) :
    ((c + E2e.p01CounterSpan - l) % E2e.p01CounterSpan).toNat = (c.toNat + 15 - l.toNat) % 15 := by
  have h15 : E2e.p01CounterSpan.toNat = 15 := rfl
  have hc' : c.toNat < 15 := UInt8.lt_iff_toNat_lt.mp hc
  have hl' : l.toNat < 15 := UInt8.lt_iff_toNat_lt.mp hl
  rw [UInt8.toNat_mod, h15, UInt8.toNat_sub_of_le, UInt8.toNat_add, h15]
  · rw [Nat.mod_eq_of_lt (a := c.toNat + 15) (by omega)]
  · rw [UInt8.le_iff_toNat_le, UInt8.toNat_add, h15, Nat.mod_eq_of_lt (by omega)]
    omega

/-- A check notes a counter, adds what it skipped, and calls a frame usable unless the counter has
not moved; a frame that does not pass changes nothing. -/
theorem checkEx_counts (cfg : Config) (r : E2e.RxState) (data : ℕ → UInt8) {last : Option UInt8}
    (h : Follows r last) :
    match counterOf cfg data with
    | none => (r.checkEx data cfg.dlc cfg.layout) = (r, .crcError)
    | some c => Follows (r.checkEx data cfg.dlc cfg.layout).1 (some c) ∧
        (r.checkEx data cfg.dlc cfg.layout).1.lostFrames =
          r.lostFrames + UInt32.ofNat (missing last c) ∧
        (r.checkEx data cfg.dlc cfg.layout).2.usable = decide (last ≠ some c) := by
  unfold counterOf E2e.RxState.checkEx
  by_cases hcrc : data cfg.layout.crcPos = E2e.compute data cfg.dlc cfg.layout
  swap
  · simp [hcrc]
  generalize data cfg.layout.counterPos &&& 0x0F = c
  by_cases hc : c < E2e.p01CounterSpan
  swap
  · have hle : E2e.p01CounterSpan ≤ c := UInt8.not_lt.mp hc
    simp [hcrc, hc, hle]
  have hnle : ¬E2e.p01CounterSpan ≤ c := UInt8.not_le.mpr hc
  rw [if_pos ⟨hcrc, hc⟩, if_neg (not_not.mpr hcrc), if_neg hnle]
  dsimp only
  cases last with
  | none =>
    have hs : r.started = false := h
    simp [Follows, missing, hs, hc, Status.usable]
  | some l =>
    obtain ⟨hs, hl, hlt⟩ := h
    have hd := delta_toNat hc hlt
    have hc' : c.toNat < 15 := UInt8.lt_iff_toNat_lt.mp hc
    have hl' : l.toNat < 15 := UInt8.lt_iff_toNat_lt.mp hlt
    rw [hl, hs]
    generalize (c + E2e.p01CounterSpan - l) % E2e.p01CounterSpan = delta at hd
    refine ⟨⟨rfl, rfl, hc⟩, ?_, ?_⟩
    · by_cases hgap : 1 < delta
      · have hgap' : 1 < delta.toNat := UInt8.lt_iff_toNat_lt.mp hgap
        rw [if_pos (by simp [hgap])]
        congr 1
        rw [← UInt32.toNat_inj, UInt8.toNat_toUInt32,
          UInt8.toNat_sub_of_le _ _ (UInt8.le_of_lt hgap),
          UInt32.toNat_ofNat', Nat.mod_eq_of_lt (by simp only [missing]; omega)]
        simp only [missing, ← hd]
        rfl
      · have hgap' : ¬1 < delta.toNat := fun hc => hgap (UInt8.lt_iff_toNat_lt.mpr hc)
        rw [if_neg (by simp [hgap])]
        have h0 : missing (some l) c = 0 := by
          simp only [missing, ← hd]
          omega
        rw [h0]
        simp
    · have hzero : delta = 0 ↔ l = c := by
        rw [← UInt8.toNat_inj, ← UInt8.toNat_inj, hd, UInt8.toNat_zero]
        omega
      by_cases hz : delta = 0
      · have hlc := hzero.mp hz
        simp [hz, hlc, Status.usable]
      · have hlc : l ≠ c := fun hc => hz (hzero.mpr hc)
        by_cases hgap : 1 < delta <;> simp [hz, hlc, hgap, Status.usable]

/-! ## The count -/

/-- The count, and the baseline of what is hidden in it. -/
structure Counted (w : World) (t : Tally) : Prop where
  follows : Follows w.mon.e2e t.last
  quiet : w.mon.quiet = t.silence
  seen : w.mon.seen = w.mon.e2e.lostFrames
  lost : w.mon.lost = UInt32.ofNat t.shown

/-- What a step that is no frame leaves of the count. -/
structure Uncounted (w w' : World) : Prop where
  last : w'.mon.e2e.last = w.mon.e2e.last
  started : w'.mon.e2e.started = w.mon.e2e.started
  lostFrames : w'.mon.e2e.lostFrames = w.mon.e2e.lostFrames
  seen : w'.mon.seen = w.mon.seen
  hidden : w'.mon.hidden = w.mon.hidden

theorem Follows.congr {r r' : E2e.RxState} {last : Option UInt8} (h : Follows r last)
    (hl : r'.last = r.last) (hs : r'.started = r.started) : Follows r' last := by
  cases last with
  | none => exact hs.trans h
  | some l => exact ⟨hs.trans h.1, hl.trans h.2.1, h.2.2⟩

theorem Counted.of_uncounted {w w' : World} {t t' : Tally} (h : Counted w t) (hu : Uncounted w w')
    (hlast : t'.last = t.last) (hshown : t'.shown = t.shown) (hq : w'.mon.quiet = t'.silence) :
    Counted w' t' where
  follows := by
    rw [hlast]
    exact h.follows.congr hu.last hu.started
  quiet := hq
  seen := by rw [hu.seen, hu.lostFrames, h.seen]
  lost := by
    rw [hshown, ← h.lost]
    simp only [RxMonitor.lost, hu.lostFrames, hu.hidden]

theorem receiveEx_uncounted (r : E2e.RxState) (now : UInt64) (st : Status) (suspended : Bool) :
    (r.receiveEx now st suspended).1.last = r.last ∧
      (r.receiveEx now st suspended).1.started = r.started ∧
      (r.receiveEx now st suspended).1.lostFrames = r.lostFrames := by
  cases st with
  | crcError =>
    rw [receiveEx_corrupt]
    dsimp only
    split <;> exact ⟨rfl, rfl, rfl⟩
  | repeated =>
    rw [receiveEx_repeated]
    exact ⟨rfl, rfl, rfl⟩
  | ok =>
    rw [(receiveEx_usable r now suspended rfl).1]
    exact ⟨rfl, rfl, rfl⟩
  | lost =>
    rw [(receiveEx_usable r now suspended rfl).1]
    exact ⟨rfl, rfl, rfl⟩

/-- What a checked frame does to the count. -/
theorem checked_counts (r : RxMonitor) (now : UInt64) (st : Status) (gate receiving susp : Bool) :
    (r.checked now st gate receiving susp).1.seen = r.e2e.lostFrames ∧
      (r.checked now st gate receiving susp).1.hidden =
        (if r.quiet then r.hidden + (r.e2e.lostFrames - r.seen) else r.hidden) ∧
      (r.checked now st gate receiving susp).1.quiet = (r.quiet && !(receiving && st.usable)) := by
  simp only [RxMonitor.checked]
  cases (r.e2e.receiveEx now st susp).2 <;> cases gate <;> exact ⟨rfl, rfl, rfl⟩

theorem counted_frame {cfg : Config} {w : World} {t : Tally} (h : Counted w t) (now : UInt64)
    (data : ℕ → UInt8) : Counted (w.step cfg (.frame now data)).1
      (t.note cfg (Trace.entry (World.step cfg) w (.frame now data))) := by
  have hcheck := checkEx_counts cfg w.mon.e2e data h.follows
  have hstep : (w.step cfg (.frame now data)).1.mon =
      ({ w.mon with e2e := (w.mon.e2e.checkEx data cfg.dlc cfg.layout).1 }.checked now
        (w.mon.e2e.checkEx data cfg.dlc cfg.layout).2 w.gate.on w.gate.receiving
        w.gate.suspended).1 := rfl
  generalize w.mon.e2e.checkEx data cfg.dlc cfg.layout = check at hcheck hstep
  obtain ⟨hseen, hhidden, hquiet⟩ := checked_counts { w.mon with e2e := check.1 } now check.2
    w.gate.on w.gate.receiving w.gate.suspended
  have he2e := (checked_spec { w.mon with e2e := check.1 } now check.2 w.gate.on w.gate.receiving
    w.gate.suspended).1
  obtain ⟨hlast, hstarted, hlost⟩ :=
    receiveEx_uncounted check.1 now check.2 w.gate.suspended
  rw [← hstep] at hseen hhidden hquiet he2e
  dsimp only at hseen hhidden hquiet he2e
  rw [← he2e] at hlast hstarted hlost
  unfold Tally.note
  dsimp only [Trace.entry]
  cases hc : counterOf cfg data with
  | none =>
    rw [hc] at hcheck
    dsimp only at hcheck ⊢
    rw [hcheck] at hseen hhidden hquiet hlast hstarted hlost
    dsimp only at hseen hhidden hquiet hlast hstarted hlost
    refine h.of_uncounted ⟨hlast, hstarted, hlost, by rw [hseen, h.seen], ?_⟩ rfl rfl ?_
    · rw [hhidden, h.seen]
      split <;> simp
    · rw [hquiet, h.quiet]
      simp [Status.usable]
  | some c =>
    rw [hc] at hcheck
    dsimp only at hcheck ⊢
    obtain ⟨hfollows, hcount, husable⟩ := hcheck
    refine ⟨hfollows.congr hlast hstarted, ?_, by rw [hseen, hlost], ?_⟩
    · rw [hquiet, h.quiet, husable]
    · -- what the check has added is taken off again in a silence
      have hold := h.lost
      unfold RxMonitor.lost at hold ⊢
      rw [hlost, hcount, hhidden, hcount, h.seen, h.quiet]
      split
      · rw [← hold]
        grind
      · rw [UInt32.ofNat_add, ← hold]
        grind

theorem expired_uncounted (r : E2e.RxState) (now : UInt64) :
    (r.expired now).1.last = r.last ∧ (r.expired now).1.started = r.started ∧
      (r.expired now).1.lostFrames = r.lostFrames := by
  rw [expired_frame]
  exact ⟨rfl, rfl, rfl⟩

theorem counted_step {cfg : Config} {w : World} {t : Tally} (h : Counted w t) (e : Event) :
    Counted (w.step cfg e).1 (t.note cfg (Trace.entry (World.step cfg) w e)) := by
  cases e with
  | frame now data => exact counted_frame h now data
  | sample rxOn awake =>
    have hsilent : (w.gate.sample rxOn awake).silent = !(rxOn && awake) := by
      cases rxOn <;> cases awake <;> rfl
    by_cases hs : (w.gate.sample rxOn awake).silent = true
    · have hmon : (w.step cfg (.sample rxOn awake)).1.mon = w.mon.silenced := if_pos hs
      refine h.of_uncounted ?_ rfl rfl ?_
      · constructor <;> rw [hmon] <;> rfl
      · rw [hmon]
        change true = (t.silence || !(rxOn && awake))
        rw [← hsilent, hs, Bool.or_true]
    · have hmon : (w.step cfg (.sample rxOn awake)).1.mon = w.mon := if_neg hs
      refine h.of_uncounted ?_ rfl rfl ?_
      · constructor <;> rw [hmon]
      · rw [hmon, h.quiet]
        change t.silence = (t.silence || !(rxOn && awake))
        rw [← hsilent, Bool.eq_false_iff.mpr hs, Bool.or_false]
  | forged now =>
    obtain ⟨hlast, hstarted, hlost⟩ := receiveEx_uncounted w.mon.e2e now .crcError false
    exact h.of_uncounted ⟨hlast, hstarted, hlost, rfl, rfl⟩ rfl rfl h.quiet
  | settle now =>
    by_cases hs : w.gate.settle.2 = true
    · have hmon : (w.step cfg (.settle now)).1.mon = w.mon.restart now := by
        simp only [World.step, hs, if_true]
      refine h.of_uncounted ?_ rfl rfl (by rw [hmon]; exact h.quiet)
      constructor <;> rw [hmon] <;> rfl
    · have hmon : (w.step cfg (.settle now)).1.mon = w.mon := by
        simp only [World.step, hs, if_false, Bool.false_eq_true]
      refine h.of_uncounted ?_ rfl rfl (by rw [hmon]; exact h.quiet)
      constructor <;> rw [hmon]
  | poll now =>
    by_cases hl : w.gate.live = true
    · have hmon : (w.step cfg (.poll now)).1.mon = (w.mon.expire now).1 := by
        simp only [World.step, hl, if_true]
      obtain ⟨hlast, hstarted, hlost⟩ := expired_uncounted w.mon.e2e now
      have hexp : (w.mon.expire now).1.e2e = (w.mon.e2e.expired now).1 ∧
          (w.mon.expire now).1.seen = w.mon.seen ∧ (w.mon.expire now).1.hidden = w.mon.hidden ∧
          (w.mon.expire now).1.quiet = w.mon.quiet := by
        unfold RxMonitor.expire
        dsimp only
        split <;> exact ⟨rfl, rfl, rfl, rfl⟩
      obtain ⟨he, hseen, hhidden, hquiet⟩ := hexp
      refine h.of_uncounted ?_ rfl rfl (by rw [hmon, hquiet]; exact h.quiet)
      rw [← he, ← hmon] at hlast hstarted hlost
      exact ⟨hlast, hstarted, hlost, by rw [hmon, hseen], by rw [hmon, hhidden]⟩
    · have hw : (w.step cfg (.poll now)).1 = w := by
        simp only [World.step, hl, if_false, Bool.false_eq_true]
      rw [hw]
      exact h

theorem counted_run (cfg : Config) (now : UInt64) (rxOn awake : Bool) (es : List Event) :
    Counted (Trace.final (World.step cfg) (World.start cfg now rxOn awake) es)
      (tally cfg (Trace.history (World.step cfg) (World.start cfg now rxOn awake) es)) := by
  refine Trace.run_induction (fun w hist => Counted w (tally cfg hist)) ?_ ?_ es
  · exact ⟨rfl, rfl, rfl, (by decide : (0 : UInt32) - 0 = UInt32.ofNat 0)⟩
  · intro es e h
    rw [tally_snoc]
    exact counted_step h e

/-- In every run and after every event the count is, modulo its width, the number of frames that the
counters show missing in the gaps that span no commanded silence, and that number never falls. -/
theorem lost_counts (cfg : Config) (now : UInt64) (rxOn awake : Bool) (es es' : List Event) :
    (Trace.final (World.step cfg) (World.start cfg now rxOn awake) es).mon.lost.toNat =
        (tally cfg (Trace.history (World.step cfg) (World.start cfg now rxOn awake) es)).shown %
          2 ^ 32 ∧
      (tally cfg (Trace.history (World.step cfg) (World.start cfg now rxOn awake) es)).shown ≤
        (tally cfg (Trace.history (World.step cfg) (World.start cfg now rxOn awake)
          (es ++ es'))).shown := by
  constructor
  · rw [(counted_run cfg now rxOn awake es).lost, UInt32.toNat_ofNat']
  · induction es' using List.reverseRecOn with
    | nil => exact Nat.le_of_eq (by rw [List.append_nil])
    | append_singleton es' e ih =>
      rw [← List.append_assoc, Trace.history_snoc, tally_snoc]
      exact Nat.le_trans ih (shown_note cfg _ _)

end BloblyEmb.Com
