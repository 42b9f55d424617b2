import BloblyEmb.Someip.System
import Mathlib.Tactic.Common

/-!
# Both ends of an event

In an accepted system an event is written by its producer and by its single receiver, and by no
other node of the segment. What the walk of one node writes is one invariant, `Walk.Sound`, and what
it does not leave out is one relation, `Walk.Le`; the checks tell which nodes have a reason to write
the event.
-/
namespace BloblyEmb.Someip

variable {s : System} {n : Node} {bus : Bus} {d : String}

/-! ## What a walk writes -/

/-- Why a node writes an event. -/
inductive Ends (s : System) (n : Node) (fr : SysFrame) : Bool → Prop where
  | sends (sig : SysSignal) (hs : sig ∈ s.signals) (hp : sig.producer = n.name)
      (hc : sig.name ∈ fr.signals) : Ends s n fr true
  | receives (name : String) (sig : SysSignal) (hr : name ∈ n.fbReads)
      (hs : s.signalByName name = some sig) (hp : sig.producer ≠ n.name)
      (hc : name ∈ fr.signals) : Ends s n fr false

/-- A table of a declared signal: with its own fields, or with those of a received one. -/
def TableOf (s : System) (t : SignalTable) : Prop :=
  ∃ sig, s.signalByName t.name = some sig ∧
    (t.fields = sig.fields ∨ t.source = ethIface ∧ ∃ fr, t.fields = System.rxFields fr sig.fields)

namespace Walk

/-- What a walk of a node has written. -/
structure Sound (s : System) (n : Node) (bus : Bus) (d : String) (w : Walk) : Prop where
  names : w.frames.map FrameTable.name = w.emitted
  nodup : w.emitted.Nodup
  frames : ∀ t ∈ w.frames, ∃ fr ∈ s.frames, fr.bus = bus.name ∧ ∃ tx,
    t = someipFrameLines fr ethIface tx (s.framePeer n fr d) ∧ Ends s n fr tx ∧
      (tx = false → ∀ sg ∈ fr.signals, sg ∈ w.rxSeen)
  tables : ∀ t ∈ w.signals, TableOf s t
  seen : ∀ sg ∈ w.rxSeen, (s.signalByName sg).isSome →
    ∃ t ∈ w.signals, t.name = sg ∧ t.source = ethIface

/-- Nothing that has been written is taken back. -/
structure Le (w w' : Walk) : Prop where
  emitted : ∀ x ∈ w.emitted, x ∈ w'.emitted
  signals : ∀ x ∈ w.signals, x ∈ w'.signals

theorem Le.refl (w : Walk) : Le w w := ⟨fun _ h => h, fun _ h => h⟩

theorem Le.trans {w₁ w₂ w₃ : Walk} (h : Le w₁ w₂) (h' : Le w₂ w₃) : Le w₁ w₃ :=
  ⟨fun x hx => h'.emitted x (h.emitted x hx), fun x hx => h'.signals x (h.signals x hx)⟩

theorem foldl_le {α : Type} {f : Walk → α → Walk} (hf : ∀ w x, Le w (f w x)) (l : List α)
    (w : Walk) : Le w (l.foldl f w) := by
  induction l generalizing w with
  | nil => exact .refl w
  | cons x l ih => exact (hf w x).trans (ih _)

/-- What a step of a walk writes is there at its end. -/
theorem foldl_reach {α : Type} {f : Walk → α → Walk} (hf : ∀ w x, Le w (f w x)) {x : α}
    {l : List α} (hx : x ∈ l) (w : Walk) : ∃ w', Le (f w' x) (l.foldl f w) := by
  induction l generalizing w with
  | nil => cases hx
  | cons y l ih =>
    rcases List.mem_cons.mp hx with rfl | hx
    · exact ⟨w, foldl_le hf l _⟩
    · exact ih hx _

theorem foldl_sound {α : Type} {f : Walk → α → Walk} {l : List α}
    (hf : ∀ w, Sound s n bus d w → ∀ x ∈ l, Sound s n bus d (f w x)) {w : Walk}
    (hw : Sound s n bus d w) : Sound s n bus d (l.foldl f w) := by
  induction l generalizing w with
  | nil => exact hw
  | cons x l ih =>
    exact ih (fun w hw y hy => hf w hw y (List.mem_cons_of_mem _ hy))
      (hf w hw x List.mem_cons_self)

/-- An event is written. -/
def emit (w : Walk) (name : String) (t : FrameTable) : Walk :=
  { w with emitted := w.emitted ++ [name], frames := w.frames ++ [t] }

/-- A signal is received: with a table, unless it is not declared. -/
def see (w : Walk) (sg : String) (ts : List SignalTable) : Walk :=
  { w with rxSeen := w.rxSeen ++ [sg], signals := w.signals ++ ts }

theorem emit_le (w : Walk) (name : String) (t : FrameTable) : Le w (w.emit name t) :=
  ⟨fun _ h => List.mem_append_left _ h, fun _ h => h⟩

theorem see_le (w : Walk) (sg : String) (ts : List SignalTable) : Le w (w.see sg ts) :=
  ⟨fun _ h => h, fun _ h => List.mem_append_left _ h⟩

theorem Sound.emit {w : Walk} (h : Sound s n bus d w) {fr : SysFrame} {tx : Bool}
    (hfr : fr ∈ s.frames) (hb : fr.bus = bus.name) (hne : fr.name ∉ w.emitted)
    (he : Ends s n fr tx) (hseen : tx = false → ∀ sg ∈ fr.signals, sg ∈ w.rxSeen) :
    Sound s n bus d
      (w.emit fr.name (someipFrameLines fr ethIface tx (s.framePeer n fr d))) where
  names := by
    simp only [Walk.emit, List.map_append, h.names]
    rfl
  nodup := by
    simp only [Walk.emit]
    rw [List.nodup_append]
    refine ⟨h.nodup, List.nodup_singleton _, fun a ha b hb' hab => ?_⟩
    rw [List.mem_singleton.mp hb'] at hab
    rw [hab] at ha
    exact hne ha
  frames := by
    intro t ht
    rcases List.mem_append.mp ht with ht | ht
    · exact h.frames t ht
    · exact ⟨fr, hfr, hb, tx, List.mem_singleton.mp ht, he, hseen⟩
  tables := h.tables
  seen := h.seen

theorem Sound.see {w : Walk} (h : Sound s n bus d w) {sg : String} {ts : List SignalTable}
    (hts : ∀ t ∈ ts, TableOf s t)
    (hsg : (s.signalByName sg).isSome → ∃ t ∈ ts, t.name = sg ∧ t.source = ethIface) :
    Sound s n bus d (w.see sg ts) where
  names := h.names
  nodup := h.nodup
  frames := by
    intro t ht
    obtain ⟨fr, hfr, hb, tx, ht, he, hseen⟩ := h.frames t ht
    exact ⟨fr, hfr, hb, tx, ht, he, fun htx x hx => List.mem_append_left _ (hseen htx x hx)⟩
  tables := by
    intro t ht
    rcases List.mem_append.mp ht with ht | ht
    · exact h.tables t ht
    · exact hts t ht
  seen := by
    intro x hx hsome
    rcases List.mem_append.mp hx with hx | hx
    · obtain ⟨t, ht, h1⟩ := h.seen x hx hsome
      exact ⟨t, List.mem_append_left _ ht, h1⟩
    · rw [List.mem_singleton.mp hx] at hsome ⊢
      obtain ⟨t, ht, h1⟩ := hsg hsome
      exact ⟨t, List.mem_append_right _ ht, h1⟩

theorem Sound.table {w : Walk} (h : Sound s n bus d w) {t : SignalTable} (ht : TableOf s t) :
    Sound s n bus d { w with signals := w.signals ++ [t] } where
  names := h.names
  nodup := h.nodup
  frames := h.frames
  tables := by
    intro t' ht'
    rcases List.mem_append.mp ht' with ht' | ht'
    · exact h.tables t' ht'
    · rw [List.mem_singleton.mp ht']
      exact ht
  seen := by
    intro x hx hsome
    obtain ⟨t', ht', h1⟩ := h.seen x hx hsome
    exact ⟨t', List.mem_append_left _ ht', h1⟩

theorem sound_init : Sound s n bus d {} where
  names := rfl
  nodup := List.nodup_nil
  frames := fun _ h => by cases h
  tables := fun _ h => by cases h
  seen := fun _ h => by cases h

end Walk

theorem signalByName_name {name : String} {sig : SysSignal} (h : s.signalByName name = some sig) :
    sig.name = name := by
  simpa using List.find?_some h

/-! ## The steps of the walks -/

theorem sendFrame_cases (s : System) (n : Node) (bus : Bus) (d : String)
    (sig : SysSignal) (w : Walk) (fr : SysFrame) :
    (fr.bus = bus.name → sig.name ∈ fr.signals → fr.name ∈ w.emitted) ∧
        s.sendFrame n bus d sig w fr = w ∨
    (fr.bus = bus.name ∧ sig.name ∈ fr.signals ∧ fr.name ∉ w.emitted) ∧
      s.sendFrame n bus d sig w fr =
        w.emit fr.name (someipFrameLines fr ethIface true (s.framePeer n fr d)) := by
  unfold System.sendFrame
  split_ifs with hc
  · left
    refine ⟨fun hb hm => ?_, rfl⟩
    rcases hc with hc | hc | hc
    · exact absurd hb hc
    · exact absurd hm hc
    · exact hc
  · right
    simp only [ne_eq, not_or, not_not] at hc
    exact ⟨hc, rfl⟩

theorem sendFrame_le (s : System) (n : Node) (bus : Bus) (d : String)
    (sig : SysSignal) (w : Walk) (fr : SysFrame) :
    w.Le (s.sendFrame n bus d sig w fr) := by
  rcases sendFrame_cases s n bus d sig w fr with ⟨-, h⟩ | ⟨-, h⟩
  · rw [h]
    exact .refl w
  · rw [h]
    exact w.emit_le _ _

theorem sendFrame_emitted {sig : SysSignal} {w : Walk} {fr : SysFrame} (hb : fr.bus = bus.name)
    (hm : sig.name ∈ fr.signals) : fr.name ∈ (s.sendFrame n bus d sig w fr).emitted := by
  rcases sendFrame_cases s n bus d sig w fr with ⟨h', h⟩ | ⟨-, h⟩
  · rw [h]
    exact h' hb hm
  · rw [h]
    exact List.mem_append_right _ (List.mem_singleton.mpr rfl)

theorem sendFrame_sound {sig : SysSignal} {w : Walk} {fr : SysFrame} (hs : sig ∈ s.signals)
    (hp : sig.producer = n.name) (hfr : fr ∈ s.frames) (hw : w.Sound s n bus d) :
    (s.sendFrame n bus d sig w fr).Sound s n bus d := by
  rcases sendFrame_cases s n bus d sig w fr with
    ⟨-, h⟩ | ⟨⟨hb, hm, hne⟩, h⟩
  · rw [h]
    exact hw
  · rw [h]
    exact hw.emit hfr hb hne (.sends sig hs hp hm) (fun h => by cases h)

/-- A step of the walk over the signals that does not fail. -/
def sent (s : System) (n : Node) (bus : Bus) (d : String) (w : Walk) (sig : SysSignal) : Walk :=
  if sig.bus ≠ bus.name ∨ sig.producer ≠ n.name then w
  else
    s.frames.foldl (s.sendFrame n bus d sig)
      { w with signals := w.signals ++
        [⟨sig.name, sig.fields, (n.writer sig.name).getD "", ethIface⟩] }

theorem sendSignal_ok {w w' : Walk} {sig : SysSignal} (h : s.sendSignal n bus d w sig = .ok w') :
    w' = sent s n bus d w sig := by
  unfold System.sendSignal at h
  unfold sent
  split_ifs at h ⊢ with hc
  · cases h
    rfl
  · cases hw : n.writer sig.name with
    | none =>
      rw [hw] at h
      cases h
    | some part =>
      rw [hw] at h
      cases h
      rfl

theorem foldlM_sendSignal {l : List SysSignal} {w w' : Walk}
    (h : l.foldlM (s.sendSignal n bus d) w = .ok w') : w' = l.foldl (sent s n bus d) w := by
  induction l generalizing w with
  | nil =>
    cases h
    rfl
  | cons sig l ih =>
    rw [List.foldlM_cons] at h
    cases hs : s.sendSignal n bus d w sig with
    | error e =>
      rw [hs] at h
      cases h
    | ok w₁ =>
      rw [hs] at h
      rw [List.foldl_cons, ← sendSignal_ok hs]
      exact ih h

theorem table_le (w : Walk) (t : SignalTable) : w.Le { w with signals := w.signals ++ [t] } :=
  ⟨fun _ h => h, fun _ h => List.mem_append_left _ h⟩

theorem sent_le (s : System) (n : Node) (bus : Bus) (d : String) (w : Walk) (sig : SysSignal) :
    w.Le (sent s n bus d w sig) := by
  unfold sent
  split_ifs
  · exact .refl w
  · exact (table_le w _).trans (Walk.foldl_le (sendFrame_le s n bus d sig) _ _)

theorem sent_sound {w : Walk} {sig : SysSignal} (hs : sig ∈ s.signals)
    (hu : s.signalByName sig.name = some sig) (hw : w.Sound s n bus d) :
    (sent s n bus d w sig).Sound s n bus d := by
  unfold sent
  split_ifs with hc
  · exact hw
  · simp only [ne_eq, not_or, not_not] at hc
    exact Walk.foldl_sound (fun w hw fr hfr => sendFrame_sound hs hc.2 hfr hw)
      (hw.table ⟨sig, hu, .inl rfl⟩)

/-- A signal that a node produces is declared as sent, and its events are written. -/
theorem sent_done (s : System) (n : Node) (bus : Bus) (d : String) {w : Walk} {sig : SysSignal}
    (hb : sig.bus = bus.name) (hp : sig.producer = n.name) :
    (∃ t ∈ (sent s n bus d w sig).signals, t.name = sig.name ∧ t.target = ethIface) ∧
    ∀ fr ∈ s.frames, fr.bus = bus.name → sig.name ∈ fr.signals →
      fr.name ∈ (sent s n bus d w sig).emitted := by
  unfold sent
  rw [if_neg (by simp [hb, hp])]
  constructor
  · exact ⟨_, (Walk.foldl_le (sendFrame_le s n bus d sig) _ _).signals _
      (List.mem_append_right _ (List.mem_singleton.mpr rfl)), rfl, rfl⟩
  · intro fr hfr hfb hm
    obtain ⟨w', hle⟩ := Walk.foldl_reach (sendFrame_le s n bus d sig) hfr
      { w with signals := w.signals ++
        [⟨sig.name, sig.fields, (n.writer sig.name).getD "", ethIface⟩] }
    exact hle.emitted _ (sendFrame_emitted hfb hm)

theorem receiveSignal_cases (s : System) (n : Node) (fr : SysFrame) (w : Walk) (sg : String) :
    sg ∈ w.rxSeen ∧ s.receiveSignal n fr w sg = w ∨
    ∃ ts, s.receiveSignal n fr w sg = w.see sg ts ∧ (∀ t ∈ ts, TableOf s t) ∧
      ((s.signalByName sg).isSome → ∃ t ∈ ts, t.name = sg ∧ t.source = ethIface) := by
  unfold System.receiveSignal
  split_ifs with hin
  · exact .inl ⟨hin, rfl⟩
  · right
    cases hs : s.signalByName sg with
    | none =>
      refine ⟨[], ?_, fun t ht => (by cases ht), fun h => (by cases h)⟩
      simp [Walk.see]
    | some sig =>
      have hname := signalByName_name hs
      refine ⟨_, rfl, fun t ht => ?_, fun _ => ⟨_, List.mem_singleton.mpr rfl, hname, rfl⟩⟩
      rw [List.mem_singleton.mp ht]
      exact ⟨sig, by rw [hname, hs], .inr ⟨rfl, fr, rfl⟩⟩

theorem receiveSignal_le (fr : SysFrame) (w : Walk) (sg : String) :
    w.Le (s.receiveSignal n fr w sg) := by
  rcases receiveSignal_cases s n fr w sg with ⟨-, h⟩ | ⟨ts, h, -⟩
  · rw [h]
    exact .refl w
  · rw [h]
    exact w.see_le sg ts

theorem receiveSignal_sound {fr : SysFrame} {w : Walk} (hw : w.Sound s n bus d) (sg : String) :
    (s.receiveSignal n fr w sg).Sound s n bus d := by
  rcases receiveSignal_cases s n fr w sg with ⟨-, h⟩ | ⟨ts, h, hts, hsg⟩
  · rw [h]
    exact hw
  · rw [h]
    exact hw.see hts hsg

/-- The signals of an event are seen, and the events written stay as they are. -/
theorem receiveSignals_seen (s : System) (n : Node) (fr : SysFrame) (l : List String) (w : Walk) :
    (∀ sg, sg ∈ w.rxSeen ∨ sg ∈ l → sg ∈ (l.foldl (s.receiveSignal n fr) w).rxSeen) ∧
      (l.foldl (s.receiveSignal n fr) w).emitted = w.emitted := by
  induction l generalizing w with
  | nil => exact ⟨fun sg h => h.resolve_right (by simp), rfl⟩
  | cons x l ih =>
    obtain ⟨h1, h2⟩ := ih (s.receiveSignal n fr w x)
    have hx : (∀ sg, sg ∈ w.rxSeen ∨ sg = x → sg ∈ (s.receiveSignal n fr w x).rxSeen) ∧
        (s.receiveSignal n fr w x).emitted = w.emitted := by
      rcases receiveSignal_cases s n fr w x with ⟨hin, h⟩ | ⟨ts, h, -⟩
      · rw [h]
        exact ⟨fun sg hsg => hsg.elim id fun he => by rw [he]; exact hin, rfl⟩
      · rw [h]
        refine ⟨fun sg hsg => ?_, rfl⟩
        rcases hsg with hsg | rfl
        · exact List.mem_append_left _ hsg
        · exact List.mem_append_right _ (List.mem_singleton.mpr rfl)
    refine ⟨fun sg hsg => h1 sg ?_, by rw [List.foldl_cons, h2, hx.2]⟩
    rcases hsg with hsg | hsg
    · exact .inl (hx.1 sg (.inl hsg))
    · rcases List.mem_cons.mp hsg with hsg | hsg
      · exact .inl (hx.1 sg (.inr hsg))
      · exact .inr hsg

/-- The name of the event may be noted before its signals or after them. -/
theorem receiveSignals_emitted (fr : SysFrame) (l : List String) (w : Walk) (e : List String) :
    l.foldl (s.receiveSignal n fr) { w with emitted := e } =
      { l.foldl (s.receiveSignal n fr) w with emitted := e } := by
  induction l generalizing w with
  | nil => rfl
  | cons x l ih =>
    rw [List.foldl_cons, List.foldl_cons, ← ih]
    congr 1
    unfold System.receiveSignal
    split_ifs
    · rfl
    · cases s.signalByName x <;> rfl

theorem receiveFrame_cases (s : System) (n : Node) (bus : Bus) (d : String)
    (name : String) (w : Walk) (fr : SysFrame) :
    (fr.bus = bus.name → name ∈ fr.signals → fr.name ∈ w.emitted) ∧
        s.receiveFrame n bus d name w fr = w ∨
    (fr.bus = bus.name ∧ name ∈ fr.signals ∧ fr.name ∉ w.emitted) ∧
      s.receiveFrame n bus d name w fr =
        (fr.signals.foldl (s.receiveSignal n fr) w).emit fr.name
          (someipFrameLines fr ethIface false (s.framePeer n fr d)) := by
  unfold System.receiveFrame
  split_ifs with hc
  · left
    refine ⟨fun hb hm => ?_, rfl⟩
    rcases hc with hc | hc | hc
    · exact absurd hb hc
    · exact absurd hm hc
    · exact hc
  · right
    simp only [ne_eq, not_or, not_not] at hc
    refine ⟨hc, ?_⟩
    have hem := (receiveSignals_seen s n fr fr.signals w).2
    simp only [receiveSignals_emitted, Walk.emit, hem]

theorem receiveFrame_le (s : System) (n : Node) (bus : Bus) (d : String)
    (name : String) (w : Walk) (fr : SysFrame) :
    w.Le (s.receiveFrame n bus d name w fr) := by
  rcases receiveFrame_cases s n bus d name w fr with
    ⟨-, h⟩ | ⟨-, h⟩
  · rw [h]
    exact .refl w
  · rw [h]
    exact (Walk.foldl_le (receiveSignal_le fr) _ _).trans (Walk.emit_le _ _ _)

theorem receiveFrame_emitted {name : String} {w : Walk} {fr : SysFrame} (hb : fr.bus = bus.name)
    (hm : name ∈ fr.signals) : fr.name ∈ (s.receiveFrame n bus d name w fr).emitted := by
  rcases receiveFrame_cases s n bus d name w fr with
    ⟨h', h⟩ | ⟨-, h⟩
  · rw [h]
    exact h' hb hm
  · rw [h]
    exact List.mem_append_right _ (List.mem_singleton.mpr rfl)

theorem receiveFrame_sound {name : String} {sig : SysSignal} {w : Walk} {fr : SysFrame}
    (hr : name ∈ n.fbReads) (hs : s.signalByName name = some sig) (hp : sig.producer ≠ n.name)
    (hfr : fr ∈ s.frames) (hw : w.Sound s n bus d) :
    (s.receiveFrame n bus d name w fr).Sound s n bus d := by
  rcases receiveFrame_cases s n bus d name w fr with
    ⟨-, h⟩ | ⟨⟨hb, hm, hne⟩, h⟩
  · rw [h]
    exact hw
  · obtain ⟨hseen, hem⟩ := receiveSignals_seen s n fr fr.signals w
    rw [h]
    refine (Walk.foldl_sound (fun w hw sg _ => receiveSignal_sound hw sg) hw).emit hfr hb ?_
      (.receives name sig hr hs hp hm) fun _ sg hsg => hseen sg (.inr hsg)
    rw [hem]
    exact hne

theorem receiveRead_le (s : System) (n : Node) (bus : Bus) (d : String) (w : Walk)
    (name : String) : w.Le (s.receiveRead n bus d w name) := by
  unfold System.receiveRead
  cases s.signalByName name with
  | none => exact .refl w
  | some sig =>
    dsimp only
    split_ifs
    · exact .refl w
    · exact Walk.foldl_le (receiveFrame_le s n bus d name) _ _

theorem receiveRead_sound {w : Walk} {name : String} (hr : name ∈ n.fbReads)
    (hw : w.Sound s n bus d) : (s.receiveRead n bus d w name).Sound s n bus d := by
  unfold System.receiveRead
  cases hs : s.signalByName name with
  | none => exact hw
  | some sig =>
    dsimp only
    split_ifs with hc
    · exact hw
    · simp only [ne_eq, not_or, not_not] at hc
      exact Walk.foldl_sound (fun w hw fr hfr => receiveFrame_sound hr hs hc.2 hfr hw) hw

theorem receiveRead_done {w : Walk} {name : String} {sig : SysSignal}
    (hs : s.signalByName name = some sig) (hb : sig.bus = bus.name) (hp : sig.producer ≠ n.name)
    {fr : SysFrame} (hfr : fr ∈ s.frames) (hfb : fr.bus = bus.name) (hm : name ∈ fr.signals) :
    fr.name ∈ (s.receiveRead n bus d w name).emitted := by
  unfold System.receiveRead
  rw [hs]
  dsimp only
  rw [if_neg (by simp [hb, hp])]
  obtain ⟨w', hle⟩ := Walk.foldl_reach
    (receiveFrame_le s n bus d name) hfr w
  exact hle.emitted _ (receiveFrame_emitted hfb hm)

/-! ## The sections of a node -/

/-- What the sections of a node on a bus hold. -/
structure Written (s : System) (n : Node) (bus : Bus) (sec : Sections) : Prop where
  segment : sec.segment = bus.name
  peer : sec.peer = s.endpointOf ((s.someipPartners n bus.name).headD "")
  nodup : (sec.frames.map FrameTable.name).Nodup
  frames : ∀ t ∈ sec.frames, ∃ fr ∈ s.frames, fr.bus = bus.name ∧ ∃ tx,
    t = someipFrameLines fr ethIface tx
      (s.framePeer n fr ((s.someipPartners n bus.name).headD "")) ∧ Ends s n fr tx ∧
      (tx = false → ∀ sg ∈ fr.signals, (s.signalByName sg).isSome →
        ∃ t ∈ sec.signals, t.name = sg ∧ t.source = ethIface)
  tables : ∀ t ∈ sec.signals, TableOf s t
  produced : ∀ sig ∈ s.signals, sig.bus = bus.name → sig.producer = n.name →
    (∃ t ∈ sec.signals, t.name = sig.name ∧ t.target = ethIface) ∧
    ∀ fr ∈ s.frames, fr.bus = bus.name → sig.name ∈ fr.signals →
      fr.name ∈ sec.frames.map FrameTable.name
  read : ∀ name ∈ n.fbReads, ∀ sig, s.signalByName name = some sig → sig.bus = bus.name →
    sig.producer ≠ n.name → ∀ fr ∈ s.frames, fr.bus = bus.name → name ∈ fr.signals →
      fr.name ∈ sec.frames.map FrameTable.name

theorem someipSections_written (hu : ∀ sig ∈ s.signals, s.signalByName sig.name = some sig)
    {sec : Sections} (h : s.someipSections n bus = .ok (some sec)) : Written s n bus sec := by
  unfold System.someipSections at h
  by_cases hip : n.ipHost = true
  · rw [if_pos hip] at h
    cases h
  rw [if_neg hip] at h
  dsimp only at h
  generalize hd : (s.someipPartners n bus.name).headD "" = d at h
  cases hw : s.signals.foldlM (s.sendSignal n bus d) {} with
  | error e =>
    rw [hw] at h
    cases h
  | ok w₁ =>
    rw [hw] at h
    have h₁ := foldlM_sendSignal hw
    have hsound₁ : w₁.Sound s n bus d := by
      rw [h₁]
      exact Walk.foldl_sound (fun w hw sig hs => sent_sound hs (hu sig hs) hw) Walk.sound_init
    have hle := Walk.foldl_le (receiveRead_le s n bus d) n.fbReads w₁
    have hsound := Walk.foldl_sound (l := n.fbReads)
      (fun w hw name hr => receiveRead_sound hr hw) hsound₁
    cases h
    refine ⟨rfl, by rw [hd], ?_, fun t ht => ?_, hsound.tables, fun sig hs hb hp => ?_,
      fun name hr sig hs hb hp fr hfr hfb hm => ?_⟩
    · dsimp only
      rw [hsound.names]
      exact hsound.nodup
    · obtain ⟨fr, hfr, hb, tx, ht, he, hseen⟩ := hsound.frames t ht
      rw [hd]
      exact ⟨fr, hfr, hb, tx, ht, he, fun htx sg hsg => hsound.seen sg (hseen htx sg hsg)⟩
    · obtain ⟨w', hreach⟩ := Walk.foldl_reach
        (sent_le s n bus d) hs {}
      rw [← h₁] at hreach
      obtain ⟨⟨t, ht, hname⟩, hfrs⟩ :=
        sent_done s n bus d (w := w') hb hp
      refine ⟨⟨t, hle.signals _ (hreach.signals _ ht), hname⟩, fun fr hfr hfb hm => ?_⟩
      dsimp only
      rw [hsound.names]
      exact hle.emitted _ (hreach.emitted _ (hfrs fr hfr hfb hm))
    · dsimp only
      rw [hsound.names]
      obtain ⟨w', hreach⟩ := Walk.foldl_reach
        (receiveRead_le s n bus d) hr w₁
      exact hreach.emitted _ (receiveRead_done hs hb hp hfr hfb hm)

end BloblyEmb.Someip
