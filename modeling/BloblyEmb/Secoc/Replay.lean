import BloblyEmb.Lib.Trace
import BloblyEmb.Secoc.Cmac

/-!
# Frames that come again

A sender stamps its frames with eight bits of freshness, and what lies between it and the receiver
may hold them back, drop them, reorder them and feed them again, and feed frames of its own. The
receiver knows the order of the frames by the freshness of the newest that it accepted.
-/
namespace BloblyEmb.Secoc

/-- The fields of a protected frame. -/
structure Frame where
  key : Key
  dataId : UInt16
  dlc : ℕ
  freshPos : ℕ
  macPos : ℕ
  macLen : ℕ

/-- A frame of CAN FD at most, and the freshness not under the MAC. -/
structure Frame.Sound (f : Frame) : Prop where
  dlc : f.dlc ≤ 64
  fresh : f.freshPos < f.macPos ∨ f.macPos + f.macLen ≤ f.freshPos

/-- The MAC of these bytes does not match. -/
def Frame.Mismatch (f : Frame) (data : ℕ → UInt8) : Prop :=
  ∃ mac, macInput f.key data f.dlc f.dataId f.macPos (macBytes f.macLen) = some mac ∧
    ∃ i < macBytes f.macLen, data (f.macPos + i) ≠ mac.getD i 0

/-- The sender, all frames that it has sent, and the receiver. -/
structure World where
  tx : TxState
  frames : List (ℕ → UInt8) := []
  rx : RxState := {}

inductive Event where
  | send (payload : ℕ → UInt8)
  /-- The frame that was sent as this one, counted from 0. -/
  | deliver (k : ℕ)
  | inject (data : ℕ → UInt8)

inductive Label where
  | silent
  | trapped
  | judged (k : ℕ) (st : Status)
  | injected (st : Status)
deriving DecidableEq

namespace World

def verify (f : Frame) (w : World) (data : ℕ → UInt8) (note : Status → Label) : World × Label :=
  match w.rx.verify f.key data f.dlc f.dataId f.freshPos f.macPos f.macLen with
  | none => (w, .trapped)
  | some (rx, st) => ({ w with rx := rx }, note st)

def step (f : Frame) (w : World) : Event → World × Label
  | .send payload =>
    match w.tx.protect f.key payload f.dlc f.dataId f.freshPos f.macPos f.macLen with
    | none => (w, .trapped)
    | some (tx, data) => ({ w with tx := tx, frames := w.frames ++ [data] }, .silent)
  | .deliver k =>
    match w.frames[k]? with
    | none => (w, .silent)
    | some data => w.verify f data (.judged k)
  | .inject data => w.verify f data .injected

end World

/-! ## What a run shows -/

abbrev Step := Trace.Entry World Event Label

/-- The frames that were accepted, the last one first. -/
def accepted (hist : List Step) : List ℕ :=
  hist.foldl (fun g x => match x.label with | .judged k .ok => k :: g | _ => g) []

theorem accepted_snoc (hist : List Step) (x : Step) :
    accepted (hist ++ [x]) =
      match x.label with | .judged k .ok => k :: accepted hist | _ => accepted hist := by
  simp [accepted]

/-- The frame that was sent last among those that were accepted. -/
def Newest (g : List ℕ) (m : ℕ) : Prop := m ∈ g ∧ ∀ j ∈ g, j ≤ m

/-- What is between the two delivers no frame from further than half the circle away, and its own
frames do not match. -/
structure Bounded (f : Frame) (g : List ℕ) (x : Step) : Prop where
  near : ∀ k, x.event = .deliver k → ∀ m, Newest g m → k ≤ m + 127 ∧ m ≤ k + 127
  forged : ∀ data, x.event = .inject data → f.Mismatch data

/-- What the receiver makes of a step. -/
structure Judges (g : List ℕ) (x : Step) : Prop where
  fits : x.label ≠ .trapped
  /-- It accepts exactly the frames that were sent after the newest accepted one. -/
  exact : ∀ k, x.event = .deliver k → k < x.before.frames.length →
    ∃ st, x.label = .judged k st ∧ (st = .ok ↔ ∀ m, Newest g m → m < k)
  /-- So none is accepted twice, or after a later one. -/
  once : ∀ k, x.label = .judged k .ok → ∀ j ∈ g, j < k
  rejected : ∀ k st, x.label = .judged k st → st ≠ .ok → x.after.rx = x.before.rx
  injected : ∀ data, x.event = .inject data →
    x.label = .injected .authFailed ∧ x.after.rx = x.before.rx

/-! ## The invariant -/

/-- The bytes of the frame that was sent as number `k`. -/
def Genuine (f : Frame) (first : UInt8) (k : ℕ) (data : ℕ → UInt8) : Prop :=
  ∃ payload mac, macInput f.key (Function.update payload f.freshPos (first + UInt8.ofNat k)) f.dlc
      f.dataId f.macPos (macBytes f.macLen) = some mac ∧
    data = stamp (Function.update payload f.freshPos (first + UInt8.ofNat k)) f.macPos mac
      (macBytes f.macLen)

structure Inv (f : Frame) (first : UInt8) (w : World) (g : List ℕ) : Prop where
  sender : w.tx.freshness = first + UInt8.ofNat w.frames.length
  frames : ∀ k data, w.frames[k]? = some data → Genuine f first k data
  fresh : g = [] → w.rx.started = false
  newest : ∀ k rest, g = k :: rest →
    w.rx.started = true ∧ w.rx.last = first + UInt8.ofNat k ∧ ∀ j ∈ rest, j < k

theorem Inv.newest_iff {f : Frame} {first : UInt8} {w : World} {k : ℕ} {rest : List ℕ}
    (h : Inv f first w (k :: rest)) (m : ℕ) : Newest (k :: rest) m ↔ m = k := by
  obtain ⟨-, -, hlater⟩ := h.newest k rest rfl
  constructor
  · rintro ⟨hmem, hmax⟩
    rcases List.mem_cons.mp hmem with rfl | hmem
    · rfl
    · have hlt := hlater m hmem
      have hle := hmax k List.mem_cons_self
      omega
  · rintro rfl
    refine ⟨List.mem_cons_self, ?_⟩
    intro j hj
    rcases List.mem_cons.mp hj with rfl | hj
    · exact Nat.le_refl _
    · exact Nat.le_of_lt (hlater j hj)

/-! ## One step -/

/-- On the circle of freshness values, half the way is ahead. -/
theorem stale_iff (first : UInt8) {k m : ℕ} (hk : k ≤ m + 127) (hm : m ≤ k + 127) :
    ((first + UInt8.ofNat k - (first + UInt8.ofNat m)) &&& 0xFF = 0 ∨
      128 < (first + UInt8.ofNat k - (first + UInt8.ofNat m)) &&& 0xFF) ↔ k ≤ m := by
  have hmask : ∀ d : UInt8, d &&& 0xFF = d := by
    intro d
    apply UInt8.toNat_inj.mp
    rw [UInt8.toNat_and, show (0xFF : UInt8).toNat = 2 ^ 8 - 1 by rfl,
      Nat.and_two_pow_sub_one_eq_mod, Nat.mod_eq_of_lt d.toNat_lt]
  have hdelta : (first + UInt8.ofNat k - (first + UInt8.ofNat m)).toNat =
      (k + 256 - m % 256) % 256 := by
    rw [UInt8.toNat_sub, UInt8.toNat_add, UInt8.toNat_add, UInt8.toNat_ofNat', UInt8.toNat_ofNat']
    have hlt := first.toNat_lt
    omega
  rw [hmask, ← UInt8.toNat_inj, UInt8.lt_iff_toNat_lt, hdelta,
    show (0 : UInt8).toNat = 0 by rfl, show (128 : UInt8).toNat = 128 by rfl]
  omega

theorem diff_ne_zero {data : ℕ → UInt8} {macPos n : ℕ} {mac : List UInt8}
    (h : ∃ i < n, data (macPos + i) ≠ mac.getD i 0) :
    (List.range n).foldl (fun d i => d ||| (data (macPos + i) ^^^ mac.getD i 0)) 0 ≠
      (0 : UInt8) := by
  induction n with
  | zero =>
    obtain ⟨i, hi, -⟩ := h
    omega
  | succ n ih =>
    rw [List.range_succ, List.foldl_append]
    simp only [List.foldl_cons, List.foldl_nil, ne_eq, UInt8.or_eq_zero_iff, not_and]
    obtain ⟨i, hi, hne⟩ := h
    intro hzero
    by_cases hin : i = n
    · subst hin
      simpa using hne
    · exact absurd hzero (ih ⟨i, by omega, hne⟩)

section Steps

variable {f : Frame} {first : UInt8} {w : World} {g : List ℕ}

/-- A frame of the sender is judged by its freshness alone. -/
theorem verify_genuine (hf : f.Sound) {k : ℕ} {data : ℕ → UInt8} (h : Genuine f first k data)
    (r : RxState) :
    r.verify f.key data f.dlc f.dataId f.freshPos f.macPos f.macLen =
      some (if r.started = true ∧ ((first + UInt8.ofNat k - r.last) &&& 0xFF = 0 ∨
          128 < (first + UInt8.ofNat k - r.last) &&& 0xFF) then (r, .replay)
        else ({ last := first + UInt8.ofNat k, started := true }, .ok)) := by
  obtain ⟨payload, mac, hmac, rfl⟩ := h
  have hle : macBytes f.macLen ≤ f.macLen := by
    simp only [macBytes]
    split <;> omega
  have hout : f.freshPos < f.macPos ∨ f.macPos + macBytes f.macLen ≤ f.freshPos := by
    have hfresh := hf.fresh
    omega
  have hverify := r.verify_stamped hmac hout
  rwa [Function.update_self] at hverify

theorem verify_mismatch {data : ℕ → UInt8} (h : f.Mismatch data) (r : RxState) :
    r.verify f.key data f.dlc f.dataId f.freshPos f.macPos f.macLen = some (r, .authFailed) := by
  obtain ⟨mac, hmac, hne⟩ := h
  simp only [RxState.verify, hmac, Option.map_some, if_pos (diff_ne_zero hne)]

theorem inv_send (hf : f.Sound) (h : Inv f first w g) (payload : ℕ → UInt8) :
    ∃ w', w.step f (.send payload) = (w', .silent) ∧ Inv f first w' g := by
  obtain ⟨mac, hmac, hprotect⟩ := w.tx.protect_spec f.key payload f.dataId f.freshPos f.macPos
    f.macLen hf.dlc
  refine ⟨_, by simp only [World.step, hprotect]; rfl, ?_⟩
  rw [h.sender] at hmac
  constructor
  case sender =>
    simp only [List.length_append, List.length_singleton, h.sender]
    rw [UInt8.ofNat_add]
    ac_rfl
  case frames =>
    intro k data hdata
    rcases Nat.lt_trichotomy k w.frames.length with hlt | rfl | hgt
    · rw [List.getElem?_append_left hlt] at hdata
      exact h.frames k data hdata
    · rw [List.getElem?_append_right (Nat.le_refl _), Nat.sub_self] at hdata
      simp only [List.getElem?_cons_zero, Option.some.injEq] at hdata
      refine ⟨payload, mac, hmac, ?_⟩
      rw [← hdata, h.sender]
    · rw [List.getElem?_eq_none (by simp; omega)] at hdata
      cases hdata
  case fresh => exact h.fresh
  case newest => exact h.newest

/-- The labels of a send say nothing. -/
theorem judges_silent {e : Event} (hsend : ∀ data, e ≠ .inject data)
    (hdeliver : ∀ k, e = .deliver k → w.frames.length ≤ k)
    (hlabel : (w.step f e).2 = .silent) : Judges g (Trace.entry (World.step f) w e) := by
  constructor
  case fits => simp [hlabel]
  case exact =>
    intro k he hk
    exact absurd hk (Nat.not_lt.mpr (hdeliver k he))
  case once => simp [hlabel]
  case rejected => simp [hlabel]
  case injected =>
    intro data he
    exact absurd he (hsend data)

theorem good_deliver (hf : f.Sound) (h : Inv f first w g) {k : ℕ}
    (hnear : ∀ m, Newest g m → k ≤ m + 127 ∧ m ≤ k + 127) :
    Inv f first (w.step f (.deliver k)).1
        (match (w.step f (.deliver k)).2 with | .judged k .ok => k :: g | _ => g) ∧
      Judges g (Trace.entry (World.step f) w (.deliver k)) := by
  cases hget : w.frames[k]? with
  | none =>
    have hstep : w.step f (.deliver k) = (w, .silent) := by simp [World.step, hget]
    refine ⟨by simpa only [hstep] using h, ?_⟩
    refine judges_silent (by simp) ?_ (by simp [hstep])
    intro k' he
    cases he
    exact List.getElem?_eq_none_iff.mp hget
  | some data =>
    have hverify := verify_genuine hf (h.frames k data hget) w.rx
    have hstale : (w.rx.started = true ∧
        ((first + UInt8.ofNat k - w.rx.last) &&& 0xFF = 0 ∨
          128 < (first + UInt8.ofNat k - w.rx.last) &&& 0xFF)) ↔ ¬∀ m, Newest g m → m < k := by
      cases g with
      | nil =>
        simp [h.fresh rfl, Newest]
      | cons m rest =>
        obtain ⟨hstarted, hlast, -⟩ := h.newest m rest rfl
        have hbound := hnear m ((h.newest_iff m).mpr rfl)
        rw [hlast, stale_iff first hbound.1 hbound.2]
        simp only [hstarted, true_and, h.newest_iff, forall_eq, Nat.not_lt]
    by_cases hnew : ∀ m, Newest g m → m < k
    · rw [if_neg (fun hs => hstale.mp hs hnew)] at hverify
      have hstep : w.step f (.deliver k) =
          ({ w with rx := { last := first + UInt8.ofNat k, started := true } },
            .judged k .ok) := by
        simp [World.step, World.verify, hget, hverify]
      have hlater : ∀ j ∈ g, j < k := by
        intro j hj
        cases g with
        | nil => cases hj
        | cons m rest =>
          have hm := hnew m ((h.newest_iff m).mpr rfl)
          rcases List.mem_cons.mp hj with rfl | hj
          · exact hm
          · exact Nat.lt_trans ((h.newest m rest rfl).2.2 j hj) hm
      constructor
      · rw [hstep]
        constructor
        case sender => exact h.sender
        case frames => exact h.frames
        case fresh => simp
        case newest =>
          intro m rest heq
          obtain ⟨rfl, rfl⟩ := List.cons.inj heq
          exact ⟨rfl, rfl, hlater⟩
      · constructor
        case fits => simp [hstep]
        case exact =>
          intro k' he _
          cases he
          exact ⟨.ok, by simp [hstep], iff_of_true rfl hnew⟩
        case once =>
          intro k' hl
          simp only [Trace.entry_label, hstep, Label.judged.injEq, and_true] at hl
          exact hl ▸ hlater
        case rejected =>
          intro k' st hl hne
          simp only [Trace.entry_label, hstep, Label.judged.injEq] at hl
          exact absurd hl.2.symm hne
        case injected => simp
    · rw [if_pos (hstale.mpr hnew)] at hverify
      have hstep : w.step f (.deliver k) = (w, .judged k .replay) := by
        simp [World.step, World.verify, hget, hverify]
      constructor
      · simpa only [hstep] using h
      · constructor
        case fits => simp [hstep]
        case exact =>
          intro k' he _
          cases he
          exact ⟨.replay, by simp [hstep], iff_of_false (by decide) hnew⟩
        case once => simp [hstep]
        case rejected => simp [hstep]
        case injected => simp

theorem good_step (hf : f.Sound) (h : Inv f first w g) (e : Event)
    (hb : Bounded f g (Trace.entry (World.step f) w e)) :
    Inv f first (w.step f e).1 (match (w.step f e).2 with | .judged k .ok => k :: g | _ => g) ∧
      Judges g (Trace.entry (World.step f) w e) := by
  cases e with
  | send payload =>
    obtain ⟨w', hstep, hinv⟩ := inv_send hf h payload
    refine ⟨by simpa only [hstep] using hinv, ?_⟩
    exact judges_silent (by simp) (by simp) (by rw [hstep])
  | deliver k => exact good_deliver hf h (hb.near k rfl)
  | inject data =>
    have hstep : w.step f (.inject data) = (w, .injected .authFailed) := by
      simp [World.step, World.verify, verify_mismatch (hb.forged data rfl)]
    refine ⟨by simpa only [hstep] using h, ?_⟩
    constructor <;> simp [hstep]

end Steps

/-- Whatever is held back, fed again or forged: while no frame comes from half a circle away, the
receiver accepts exactly the frames that were sent after the newest accepted one. -/
theorem replay_refused (f : Frame) (hf : f.Sound) (tx : TxState) (es : List Event)
    (hb : Trace.Along (fun hist x => Bounded f (accepted hist) x)
      (Trace.history (World.step f) { tx := tx } es)) :
    Trace.Along (fun hist x => Judges (accepted hist) x)
      (Trace.history (World.step f) { tx := tx } es) := by
  have hstart : Inv f tx.freshness { tx := tx } (accepted []) := by
    constructor
    case sender => simp
    case frames => simp
    case fresh => simp
    case newest => simp [accepted]
  refine (Trace.run_along (I := fun w hist => Inv f tx.freshness w (accepted hist)) hstart ?_ es
    hb).2
  intro es e h hx
  rw [accepted_snoc]
  exact good_step hf h e hx

/-! ### A bench -/

theorem deliver_of_judged {f : Frame} {w : World} {e : Event} {k : ℕ} {st : Status}
    (h : (w.step f e).2 = .judged k st) : e = .deliver k := by
  cases e with
  | send payload =>
    simp only [World.step] at h
    split at h <;> cases h
  | deliver j =>
    simp only [World.step] at h
    split at h
    · cases h
    · simp only [World.verify] at h
      split at h
      · cases h
      · simp only [Label.judged.injEq] at h
        rw [h.1]
  | inject data =>
    simp only [World.step, World.verify] at h
    split at h <;> cases h

theorem delivered_of_accepted (f : Frame) (w : World) (es : List Event) :
    ∀ j ∈ accepted (Trace.history (World.step f) w es), .deliver j ∈ es := by
  induction es using List.reverseRecOn with
  | nil => simp [accepted]
  | append_singleton es e ih =>
    intro j hj
    rw [Trace.history_snoc, accepted_snoc] at hj
    rw [List.mem_append, List.mem_singleton]
    split at hj
    · rename_i k hl
      rcases List.mem_cons.mp hj with rfl | hj
      · exact .inr (deliver_of_judged hl).symm
      · exact .inl (ih j hj)
    · exact .inl (ih j hj)

/-- Among the first frames all are near. -/
theorem bounded_of_short (f : Frame) (w : World) {es : List Event}
    (hk : ∀ k, .deliver k ∈ es → k ≤ 127) (hno : ∀ data, .inject data ∉ es) :
    Trace.Along (fun hist x => Bounded f (accepted hist) x)
      (Trace.history (World.step f) w es) := by
  induction es using List.reverseRecOn with
  | nil => exact .nil _
  | append_singleton es e ih =>
    rw [Trace.history_snoc, Trace.along_snoc]
    refine ⟨ih (fun k h => hk k (List.mem_append_left _ h))
      (fun data h => hno data (List.mem_append_left _ h)), ?_⟩
    constructor
    case near =>
      intro k he m hm
      have hk' := hk k (by simp [← he])
      have hm' := hk m (List.mem_append_left _ (delivered_of_accepted f w es m hm.1))
      omega
    case forged =>
      intro data he
      exact absurd (by simp [← he]) (hno data)

def benchFrame : Frame where
  key := newKey (List.replicate 16 7)
  dataId := 0x1234
  dlc := 8
  freshPos := 5
  macPos := 6
  macLen := 2

/-- Two frames arrive in the wrong order, and both come again. -/
def benchReplay : List Event :=
  [.send (fun _ => 1), .send (fun _ => 2), .deliver 1, .deliver 0, .deliver 1]

theorem replay_refused_bench :
    Trace.Along (fun hist x => Judges (accepted hist) x)
      (Trace.history (World.step benchFrame) { tx := {} } benchReplay) :=
  replay_refused benchFrame ⟨by decide, by decide⟩ {} benchReplay
    (bounded_of_short benchFrame { tx := {} } (by simp [benchReplay]) (by simp [benchReplay]))

end BloblyEmb.Secoc
