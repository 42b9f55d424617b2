import BloblyEmb.Diagroute.Bounded

/-!
# Whose answers wait

One link carries exchange after exchange, and late frames of an old one still arrive. An answer that
waits is one to the last request that was accepted: the frames of its target, received since that
request had left, carry it.
-/
namespace BloblyEmb.Isotp.Link

variable {l : Link}

theorem tick_rx (h : l.rx = .idle) (now : UInt64) : (l.tick now).rx = .idle := by
  simp only [tick, giveUpTx]
  split <;> split <;> simp [h]

theorem tick_aborts (h : l.tx = .idle) (now : UInt64) : (l.tick now).txAborts = l.txAborts := by
  have hbs : ¬l.bsExpired now := by
    simp [bsExpired, h]
  simp only [tick, if_neg hbs]
  split <;> rfl

theorem poll_rx (l : Link) (now : UInt64) : (l.poll now).2.rx = l.rx := by
  simp only [poll, pollCf, giveUpTx]
  split
  · rfl
  split
  · rfl
  split
  · rfl
  · rfl
  · rfl
  · split <;> rfl
  · split
    · rfl
    split
    · rfl
    split
    · split <;> rfl
    · rfl

theorem poll_aborts (h : l.tx = .idle) (now : UInt64) : (l.poll now).2.txAborts = l.txAborts := by
  simp only [poll, h]
  split
  · rfl
  split <;> rfl

theorem onFlow_rx (l : Link) (now : UInt64) (p : Pdu) : (l.onFlow now p).rx = l.rx := by
  simp only [onFlow, giveUpTx]
  split
  · rfl
  split
  · rfl
  split
  · rfl
  split
  · split <;> rfl
  · rfl

theorem onFrame_aborts (h : l.tx = .idle) (now : UInt64) (p : Pdu) :
    (l.onFrame now p).txAborts = l.txAborts := by
  simp only [onFrame, onSingle, onFirst, onConsecutive, inSequence, onFlow, h]
  grind

end BloblyEmb.Isotp.Link

namespace BloblyEmb.Diagroute
open Isotp Diag

namespace Router

variable {r r' : Router} {frames : List Pdu} {now : UInt64}

/-! ## What a call leaves of an exchange -/

/-- The exchange goes on as it was, or has ended, and the same answers wait. -/
structure Continues (r r' : Router) : Prop where
  routes : r'.routes = r.routes
  ticket : r'.ticket = r.ticket
  request : r'.reqHead = r.reqHead ∧ r'.reqFull = r.reqFull
  aborts : r'.aborts = r.aborts
  active : r'.active = none ∨ r'.active = r.active
  queue : r'.queue = r.queue

theorem Continues.refl (r : Router) : Continues r r :=
  ⟨rfl, rfl, ⟨rfl, rfl⟩, rfl, .inr rfl, rfl⟩

theorem Continues.trans {r'' : Router} (h : Continues r r') (h' : Continues r' r'') :
    Continues r r'' where
  routes := h'.routes.trans h.routes
  ticket := h'.ticket.trans h.ticket
  request := ⟨h'.request.1.trans h.request.1, h'.request.2.trans h.request.2⟩
  aborts := h'.aborts.trans h.aborts
  active := by
    rcases h'.active with hx | hx
    · exact .inl hx
    · rw [hx]
      exact h.active
  queue := h'.queue.trans h.queue

theorem continues_settle (r : Router) (now : UInt64) : Continues r (r.settle now) := by
  simp only [settle]
  split
  · exact .refl r
  split
  · exact ⟨rfl, rfl, ⟨rfl, rfl⟩, rfl, .inl rfl, rfl⟩
  · exact ⟨rfl, rfl, ⟨rfl, rfl⟩, rfl, .inr rfl, rfl⟩

theorem continues_overdue (r : Router) (now : UInt64) : Continues r (r.overdue now) := by
  simp only [overdue]
  split
  · exact .refl r
  · exact ⟨rfl, rfl, ⟨rfl, rfl⟩, rfl, .inl rfl, rfl⟩

theorem continues_link (r : Router) (l : Link) : Continues r { r with link := l } :=
  ⟨rfl, rfl, ⟨rfl, rfl⟩, rfl, .inr rfl, rfl⟩

theorem continues_step (r : Router) (now : UInt64) : Continues r (r.step now) := by
  have htick := continues_link r (r.link.tick now)
  simp only [step]
  split
  · exact htick
  have hsettle := htick.trans (continues_settle _ now)
  split
  · exact hsettle
  split
  · exact hsettle.trans ⟨rfl, rfl, ⟨rfl, rfl⟩, rfl, .inl rfl, rfl⟩
  · exact hsettle.trans (continues_overdue _ now)

theorem continues_hold (r : Router) (unlocked : UInt8) : Continues r (r.hold unlocked) := by
  simp only [hold]
  split
  · exact ⟨rfl, rfl, ⟨rfl, rfl⟩, rfl, .inr rfl, rfl⟩
  · exact .refl r

theorem continues_bindRoute (r : Router) (conn : UInt32) (unlocked : UInt8) :
    Continues r (r.bindRoute conn unlocked) := by
  simp only [bindRoute]
  have hnew : Continues r (if r.granted ∧ r.bound ∧ r.grantConn ≠ conn then
      { r with granted := false, bound := false } else r) := by
    split
    · exact ⟨rfl, rfl, ⟨rfl, rfl⟩, rfl, .inr rfl, rfl⟩
    · exact .refl r
  have hbind : ∀ r' : Router, Continues r' (if r'.granted ∧ ¬r'.bound then
      { r' with bound := true, grantConn := conn } else r') := by
    intro r'
    split
    · exact ⟨rfl, rfl, ⟨rfl, rfl⟩, rfl, .inr rfl, rfl⟩
    · exact .refl r'
  exact (hnew.trans (continues_hold _ unlocked)).trans (hbind _)

theorem continues_pumpAll (txId : UInt32) (now : UInt64) (channel : List Bool) (r : Router) :
    Continues r (r.pumpAll txId now channel).1 := by
  induction channel generalizing r with
  | nil => exact continues_settle r now
  | cons ok rest ih =>
    simp only [pumpAll]
    split
    · exact (continues_link r _).trans (continues_settle _ now)
    split
    · exact ⟨rfl, rfl, ⟨rfl, rfl⟩, rfl, .inl rfl, rfl⟩
    · have hmoved : Continues r { r with link := (nextFrame r.link txId now).2, movedAt := now } :=
        ⟨rfl, rfl, ⟨rfl, rfl⟩, rfl, .inr rfl, rfl⟩
      exact hmoved.trans (ih _)

theorem continues_pump (r : Router) (now : UInt64) (channel : List Bool) :
    Continues r (r.pump now channel).1 := by
  simp only [pump]
  split
  · exact .refl r
  · exact continues_pumpAll _ now channel r

theorem continues_room (r : Router) (now : UInt64) : Continues r (r.room now).2 := by
  simp only [room]
  split
  · exact ⟨rfl, rfl, ⟨rfl, rfl⟩, rfl, .inr rfl, rfl⟩
  split
  · exact ⟨rfl, rfl, ⟨rfl, rfl⟩, rfl, .inr rfl, rfl⟩
  · exact .refl r

theorem continues_pop (r : Router) : Continues { r with queue := r.pop.queue } r.pop := by
  simp only [pop]
  split <;> exact ⟨rfl, rfl, ⟨rfl, rfl⟩, rfl, .inr rfl, rfl⟩

/-! ## What the link attends to -/

/-- An exchange in flight: while its request leaves the link receives nothing, and then what it has
received is of these frames. -/
structure Attends (r : Router) (frames : List Pdu) : Prop where
  ready : r.link.ready = false
  sending : r.sending = true → r.link.rx = .idle
  received : r.sending = false → Received r.link frames
  left : r.sending = false → r.link.tx = .idle ∧ r.link.txAborts = r.aborts

/-- A link with nothing received has nothing to account for. -/
theorem received_of_idle {l : Link} (hready : l.ready = false) (hrx : l.rx = .idle)
    (frames : List Pdu) : Received l frames where
  waits h := by
    rw [hready] at h
    cases h
  under h := by
    rw [hrx] at h
    cases h

theorem attends_tick (h : Attends r frames) (now : UInt64) :
    Attends { r with link := r.link.tick now } frames where
  ready := (r.link.tick_ready now).trans h.ready
  sending hs := Link.tick_rx (h.sending hs) now
  received hs := (h.received hs).tick
  left hs := ⟨Link.tick_tx (h.left hs).1 now, (Link.tick_aborts (h.left hs).1 now).trans (h.left hs).2⟩

theorem attends_poll (h : Attends r frames) (now : UInt64) :
    Attends { r with link := (r.link.poll now).2 } frames where
  ready := (r.link.poll_ready now).trans h.ready
  sending hs := (r.link.poll_rx now).trans (h.sending hs)
  received hs := (h.received hs).poll
  left hs := ⟨(Link.poll_tx (h.left hs).1 now).1,
    (Link.poll_aborts (h.left hs).1 now).trans (h.left hs).2⟩

/-- The request has left when the link has sent it and given up on nothing. -/
theorem attends_settle (h : Attends r frames) (ha : (r.settle now).active ≠ none) :
    Attends (r.settle now) frames := by
  revert ha
  simp only [settle]
  split
  · exact fun _ => h
  rename_i hbusy
  simp only [not_or, Link.busy, decide_eq_true_eq, Classical.not_not, Bool.not_eq_false] at hbusy
  split
  · exact fun ha => absurd (endExchange_active _) ha
  · rename_i hkept
    intro _
    refine ⟨h.ready, fun h => (by cases h), fun _ => ?_, fun _ => ⟨hbusy.2.2, Classical.not_not.mp hkept⟩⟩
    exact received_of_idle h.ready (h.sending hbusy.2.1) frames

theorem attends_step (h : r.active ≠ none → Attends r frames) (ha : (r.step now).active ≠ none) :
    Attends (r.step now) frames := by
  by_cases hr : r.active = none
  · exact absurd (by simp [step, hr]) ha
  revert ha
  simp only [step, if_neg hr]
  have htick := attends_tick (h hr) now
  split
  · exact fun ha => absurd ‹_› ha
  rename_i hsettled
  have hset := attends_settle htick hsettled
  split
  · exact fun ha => absurd (endExchange_active _) ha
  · simp only [overdue]
    split
    · exact fun _ => hset
    · exact fun ha => absurd (endExchange_active _) ha

theorem attends_stamp (h : Attends r frames) : Attends { r with movedAt := now } frames :=
  ⟨h.ready, h.sending, h.received, h.left⟩

theorem attends_pumpAll (txId : UInt32) (channel : List Bool) (h : Attends r frames)
    (ha : (r.pumpAll txId now channel).1.active ≠ none) :
    Attends (r.pumpAll txId now channel).1 frames := by
  induction channel generalizing r with
  | nil => exact attends_settle h ha
  | cons ok rest ih =>
    revert ha
    simp only [pumpAll]
    split
    · exact attends_settle (attends_poll h now)
    split
    · exact fun ha => absurd (endExchange_active _) ha
    · exact ih (attends_stamp (attends_poll h now))

theorem attends_pump (h : r.active ≠ none → Attends r frames) (channel : List Bool)
    (ha : (r.pump now channel).1.active ≠ none) : Attends (r.pump now channel).1 frames := by
  revert ha
  simp only [pump]
  split
  · exact fun ha => h ha
  · rename_i i hi
    exact attends_pumpAll _ channel (h (by simp [hi]))

theorem SameExchange.attends (hs : SameExchange r r') (hab : r'.aborts = r.aborts)
    (h : Attends r frames) : Attends r' frames where
  ready := by rw [hs.link]; exact h.ready
  sending hx := by rw [hs.link]; exact h.sending (hs.sending ▸ hx)
  received hx := by rw [hs.link]; exact h.received (hs.sending ▸ hx)
  left hx := by rw [hs.link, hab]; exact h.left (hs.sending ▸ hx)

/-! ## A frame of the target -/

/-- The answer is one to the exchange in flight, and these frames carry it. -/
structure Answered (r : Router) (frames : List Pdu) (a : Answer) : Prop where
  ticket : a.ticket = r.ticket
  logical : a.logical = (r.route (r.active.getD 0)).logical
  answers : Diagroute.answers a.data r.reqHead r.reqFull = true
  carried : Carries frames a.data

/-- What a call does to an exchange that has received these frames; the answer it completes. -/
structure Hears (r r' : Router) (frames : List Pdu) : Prop where
  continues : Continues { r with queue := r'.queue } r'
  attends : r'.active ≠ none → Attends r' frames
  queue : ∃ new, r'.queue = r.queue ++ new ∧ ∀ a ∈ new, Answered r frames a

theorem Hears.of_link {l : Link} (h : Attends { r with link := l } frames) :
    Hears r { r with link := l } frames :=
  ⟨⟨rfl, rfl, ⟨rfl, rfl⟩, rfl, .inr rfl, rfl⟩, fun _ => h, [], by simp, nofun⟩

/-- A completed message is taken. -/
theorem hears_collect {l : Link} (hreceived : Received l frames) (hsending : r.sending = false)
    (hleft : l.tx = .idle ∧ l.txAborts = r.aborts) (now : UInt64) :
    Hears r ({ r with link := l }.collect now) frames := by
  have hattends : ∀ l' : Link, l'.ready = false → Received l' frames → l'.tx = l.tx →
      l'.txAborts = l.txAborts → ∀ r' : Router, r'.link = l' → r'.sending = r.sending →
      r'.aborts = r.aborts → Attends r' frames := by
    rintro l' hready hrec htx hab r' rfl hs hr
    refine ⟨hready, ?_, fun _ => hrec,
      fun _ => ⟨htx.trans hleft.1, (hab.trans hleft.2).trans hr.symm⟩⟩
    intro hx
    rw [hs, hsending] at hx
    cases hx
  have hab : l.take.2.txAborts = l.txAborts := by
    simp only [Link.take]
    split <;> rfl
  have hdrop : Attends { r with link := l.abortRx } frames :=
    hattends l.abortRx rfl (received_of_idle rfl rfl frames) rfl rfl _ rfl rfl rfl
  have htaken := hattends l.take.2 (take_ready l) hreceived.take.1 (take_tx l) hab
  simp only [collect]
  split
  · exact ⟨⟨rfl, rfl, ⟨rfl, rfl⟩, rfl, .inr rfl, rfl⟩,
      fun _ => ⟨hdrop.ready, hdrop.sending, hdrop.received, hdrop.left⟩, [], by simp, (by intros; contradiction)⟩
  split
  · exact ⟨⟨rfl, rfl, ⟨rfl, rfl⟩, rfl, .inr rfl, rfl⟩, fun _ => htaken _ rfl rfl rfl, [], by simp,
      (by intros; contradiction)⟩
  rename_i a ha
  split
  · exact ⟨⟨rfl, rfl, ⟨rfl, rfl⟩, rfl, .inr rfl, rfl⟩, fun _ => htaken _ rfl rfl rfl, [], by simp,
      (by intros; contradiction)⟩
  split
  · exact ⟨⟨rfl, rfl, ⟨rfl, rfl⟩, rfl, .inr rfl, rfl⟩, fun _ => htaken _ rfl rfl rfl, [], by simp,
      (by intros; contradiction)⟩
  rename_i hanswers
  have hnew : ∀ b ∈ [Answer.mk (r.route (r.active.getD 0)).logical r.ticket a],
      Answered r frames b := by
    intro b hb
    rw [List.mem_singleton] at hb
    subst hb
    exact ⟨rfl, rfl, Classical.not_not.mp hanswers, hreceived.take.2 a ha⟩
  split
  · exact ⟨⟨rfl, rfl, ⟨rfl, rfl⟩, rfl, .inr rfl, rfl⟩, fun _ => htaken _ rfl rfl rfl, [_], rfl, hnew⟩
  · exact ⟨⟨rfl, rfl, ⟨rfl, rfl⟩, rfl, .inl rfl, rfl⟩, fun hx => absurd rfl hx, [_], rfl, hnew⟩

theorem Hears.stamp (h : Hears r r' frames) (now : UInt64) :
    Hears r { r' with movedAt := now } frames where
  continues := ⟨h.continues.routes, h.continues.ticket, h.continues.request, h.continues.aborts,
    h.continues.active, rfl⟩
  attends hx := attends_stamp (h.attends hx)
  queue := h.queue

/-- A frame that the link takes. -/
theorem hears_intake_of {f : Frame}
    (h : Hears r (if (takeFrame r.link now f).1 then
      { r with link := (takeFrame r.link now f).2 }.collect now
      else { r with link := (takeFrame r.link now f).2 }) frames) :
    Hears r (r.intake f now) frames := by
  have hmoved : ∀ r' : Router, Hears r r' frames → Hears r
      (if r'.link.progress ≠ r.link.progress then { r' with movedAt := now } else r') frames := by
    intro r' hr'
    split
    · exact hr'.stamp now
    · exact hr'
  exact hmoved _ h

/-- A frame of the target, once the request has left. -/
theorem hears_intake (h : Attends r frames) (hsending : r.sending = false) (f : Frame)
    (now : UInt64) : Hears r (r.intake f now) (frames ++ (fed r.link f).toList) := by
  obtain ⟨htx, haborts⟩ := h.left hsending
  apply hears_intake_of
  cases hp : fed r.link f with
  | none =>
    rw [takeFrame_none hp now]
    simpa using Hears.of_link (l := r.link) h
  | some p =>
    have hreceived : Received (r.link.onFrame now p) (frames ++ [p]) :=
      (h.received hsending).onFrame fun _ => h.ready
    have hleft : (r.link.onFrame now p).tx = .idle ∧ (r.link.onFrame now p).txAborts = r.aborts :=
      ⟨Link.onFrame_tx htx now p, (Link.onFrame_aborts htx now p).trans haborts⟩
    rw [takeFrame_some hp now]
    split
    · exact hears_collect hreceived hsending hleft now
    · rename_i hready
      refine Hears.of_link ⟨by simpa using hready, ?_, fun _ => hreceived, fun _ => hleft⟩
      intro hx
      rw [hsending] at hx
      cases hx

theorem pci_of_flow {l : Link} {f : Frame} {p : Pdu} (hflow : notFlow f = false)
    (hp : fed l f = some p) : p.pci = 0x30 := by
  simp only [fed] at hp
  split at hp
  · cases hp
  · rename_i b bs hdata
    have hhead : f.data.head? = some b := by
      cases hd : f.data with
      | nil =>
        rw [hd] at hdata
        cases hdata
      | cons c cs =>
        rw [hd, List.take_succ_cons] at hdata
        exact congrArg some (List.cons.inj hdata).1
    split at hp
    · cases hp
    · obtain rfl := Option.some.inj hp
      simpa [notFlow, hhead, Pdu.pci, pdu] using hflow

/-- A flow control, while the request is leaving. -/
theorem hears_flow (h : Attends r frames) (hsending : r.sending = true) {f : Frame}
    (hflow : notFlow f = false) (now : UInt64) : Hears r (r.intake f now) frames := by
  apply hears_intake_of
  cases hp : fed r.link f with
  | none =>
    rw [takeFrame_none hp now]
    exact Hears.of_link (l := r.link) h
  | some p =>
    have hpci : p.pci = 0x30 := pci_of_flow hflow hp
    have hframe : r.link.onFrame now p = r.link.onFlow now p := by
      simp [Link.onFrame, hpci]
    rw [takeFrame_some hp now, hframe, r.link.onFlow_ready now p, h.ready]
    refine Hears.of_link ⟨(r.link.onFlow_ready now p).trans h.ready,
      fun _ => (r.link.onFlow_rx now p).trans (h.sending hsending), ?_, ?_⟩
    · intro hx
      rw [hsending] at hx
      cases hx
    · intro hx
      rw [hsending] at hx
      cases hx

/-- What the exchange in flight hears in a frame: one of its target, once the request has left. -/
def hears (r : Router) (bus : UInt8) (f : Frame) (now : UInt64) : Option Pdu :=
  if r.concerns bus f ∧ (r.step now).active ≠ none ∧ (r.step now).sending = false then
    fed (r.step now).link f
  else none

theorem hears_onFrame (h : r.active ≠ none → Attends r frames) (bus : UInt8) (f : Frame)
    (now : UInt64) :
    ((r.step now).active ≠ none ∧
        Hears (r.step now) (r.onFrame bus f now) (frames ++ (r.hears bus f now).toList)) ∨
      (Continues r (r.onFrame bus f now) ∧ r.hears bus f now = none ∧
        ∀ fs, (r.active ≠ none → Attends r fs) → (r.onFrame bus f now).active ≠ none →
          Attends (r.onFrame bus f now) fs) := by
  simp only [onFrame, hears]
  by_cases hconcerns : r.concerns bus f
  · rw [if_neg (not_not.mpr hconcerns)]
    have hstep := continues_step r now
    have hattends : (r.step now).active ≠ none → Attends (r.step now) frames :=
      fun ha => attends_step h ha
    by_cases hactive : (r.step now).active = none
    · rw [if_pos hactive, if_neg (fun hx => hx.2.1 hactive)]
      exact .inr ⟨hstep, rfl, fun fs hk ha => attends_step hk ha⟩
    rw [if_neg hactive]
    cases hsending : (r.step now).sending with
    | true =>
      simp only [true_and, Bool.true_eq_false, and_false, if_false]
      cases hflow : notFlow f with
      | true =>
        simp only [if_true]
        exact .inr ⟨hstep, fun fs hk ha => attends_step hk ha⟩
      | false =>
        left
        exact ⟨hactive, by simpa using hears_flow (hattends hactive) hsending hflow now⟩
    | false =>
      left
      simp only [Bool.false_eq_true, false_and, if_false, hconcerns, hactive, ne_eq,
        not_false_eq_true, and_self, if_true]
      exact ⟨trivial, hears_intake (hattends hactive) hsending f now⟩
  · rw [if_pos hconcerns, if_neg (fun hx => hconcerns hx.1)]
    exact .inr ⟨.refl r, rfl, fun _ hk => hk⟩

end Router

/-! ## Whose an answer is -/

abbrev Entry := Trace.Entry Router Event (Option Verdict)

/-- The frame that an event let the exchange in flight hear. -/
def heard (x : Entry) : Option Pdu :=
  match x.event with
  | .frame bus f now => x.before.hears bus f now
  | _ => none

/-- A request, with the sends that its link had given up on before it. -/
structure Request where
  idx : ℕ
  req : List UInt8
  ticket : UInt32
  aborts : UInt32

def Request.begins (q : Request) (x : Entry) : Prop :=
  (∃ conn unlocked now, x.event = .accept q.idx q.req conn q.ticket unlocked now) ∧
    x.label = some .accepted ∧ x.after.link.txAborts = q.aborts

/-- Another request was accepted, or the tester's connection ended. -/
def Supersedes (x : Entry) : Prop := x.event = .cancel ∨ x.label = some .accepted

/-- A frame of the target of the request, with the request out: the link has sent all of it and given
up on nothing. -/
def Request.FromTarget (q : Request) (routes : List Route) (x : Entry) : Prop :=
  ∃ bus f now, x.event = .frame bus f now ∧ f.ext = false ∧
    bus = (routes.getD q.idx default).bus ∧ f.id = (routes.getD q.idx default).rxId ∧
    (x.before.step now).link.tx = .idle ∧ (x.before.step now).link.txAborts = q.aborts

/-- The last request that was accepted; it was heard during the first part of what followed. -/
structure Ongoing (routes : List Route) (hist : List Entry) (q : Request)
    (during later : List Entry) : Prop where
  began : ∃ before y, hist = before ++ y :: (during ++ later) ∧ q.begins y
  alone : ∀ z ∈ during ++ later, ¬Supersedes z
  target : ∀ z ∈ during, heard z ≠ none → q.FromTarget routes z

/-- An answer to the last request that was accepted, in frames that its target sent since it left. -/
def Owed (routes : List Route) (hist : List Entry) (a : Answer) : Prop :=
  ∃ q during later, Ongoing routes hist q during later ∧ a.ticket = q.ticket ∧
    a.logical = (routes.getD q.idx default).logical ∧
    answers a.data (q.req.take reqHeadLen) q.req.length = true ∧
    Carries (during.filterMap heard) a.data

section Ongoing

variable {routes : List Route} {hist : List Entry} {q : Request} {during later : List Entry}
  {x : Entry} {a : Answer}

theorem Ongoing.passes (h : Ongoing routes hist q during later) (hx : ¬Supersedes x) :
    Ongoing routes (hist ++ [x]) q during (later ++ [x]) where
  began := by
    obtain ⟨before, y, rfl, hy⟩ := h.began
    exact ⟨before, y, by simp, hy⟩
  alone z hz := by
    rw [← List.append_assoc, List.mem_append, List.mem_singleton] at hz
    rcases hz with hz | rfl
    · exact h.alone z hz
    · exact hx
  target := h.target

theorem Ongoing.hears (h : Ongoing routes hist q during []) (hx : ¬Supersedes x)
    (htarget : heard x ≠ none → q.FromTarget routes x) :
    Ongoing routes (hist ++ [x]) q (during ++ [x]) [] where
  began := by
    obtain ⟨before, y, rfl, hy⟩ := h.began
    exact ⟨before, y, by simp, hy⟩
  alone z hz := by
    rw [List.append_nil, List.mem_append, List.mem_singleton] at hz
    rcases hz with hz | rfl
    · exact h.alone z (by simpa using hz)
    · exact hx
  target z hz := by
    rw [List.mem_append, List.mem_singleton] at hz
    rcases hz with hz | rfl
    · exact h.target z hz
    · exact htarget

theorem Owed.passes (h : Owed routes hist a) (hx : ¬Supersedes x) : Owed routes (hist ++ [x]) a := by
  obtain ⟨q, during, later, hq, hrest⟩ := h
  exact ⟨q, during, later ++ [x], hq.passes hx, hrest⟩

theorem filterMap_snoc (during : List Entry) (x : Entry) :
    (during ++ [x]).filterMap heard = during.filterMap heard ++ (heard x).toList := by
  rw [List.filterMap_append]
  cases hx : heard x <;> simp [hx]

end Ongoing

/-! ## The invariant -/

/-- The exchange in flight is the one of the request, with these frames heard. -/
structure Carrying (r : Router) (q : Request) (frames : List Pdu) : Prop where
  active : r.active = some q.idx
  ticket : r.ticket = q.ticket
  request : r.reqHead = q.req.take reqHeadLen ∧ r.reqFull = q.req.length
  aborts : r.aborts = q.aborts
  attends : r.Attends frames

structure Inv (routes : List Route) (r : Router) (hist : List Entry) : Prop where
  same : r.routes = routes
  current : r.active ≠ none → ∃ q during, Ongoing routes hist q during [] ∧
    Carrying r q (during.filterMap heard)
  queue : ∀ a ∈ r.queue, Owed routes hist a

section Steps

open Router (Continues Attends Hears)

variable {routes : List Route} {r r' : Router} {hist : List Entry} {x : Entry}

theorem Carrying.continues {q : Request} {frames : List Pdu} (h : Carrying r q frames)
    (hc : Continues { r with queue := r'.queue } r') (hactive : r'.active ≠ none)
    {frames' : List Pdu} (ha : Attends r' frames') : Carrying r' q frames' where
  active := (hc.active.resolve_left hactive).trans h.active
  ticket := hc.ticket.trans h.ticket
  request := ⟨hc.request.1.trans h.request.1, hc.request.2.trans h.request.2⟩
  aborts := hc.aborts.trans h.aborts
  attends := ha

/-- An event in which the exchange hears nothing. -/
theorem Inv.continues (h : Inv routes r hist) (hc : Continues { r with queue := r'.queue } r')
    (hattends : ∀ frames, (r.active ≠ none → Attends r frames) → r'.active ≠ none →
      Attends r' frames)
    (hqueue : ∀ a ∈ r'.queue, a ∈ r.queue) (hx : ¬Supersedes x) (hno : heard x = none) :
    Inv routes r' (hist ++ [x]) where
  same := hc.routes.trans h.same
  current hactive := by
    have hbefore : r.active ≠ none := hc.active.resolve_left hactive ▸ hactive
    obtain ⟨q, during, hq, hr⟩ := h.current hbefore
    refine ⟨q, during ++ [x], hq.hears hx (fun hh => absurd hno hh), ?_⟩
    rw [filterMap_snoc, hno, Option.toList_none, List.append_nil]
    exact hr.continues hc hactive (hattends _ (fun _ => hr.attends) hactive)
  queue a ha := (h.queue a (hqueue a ha)).passes hx

theorem Inv.passes (h : Inv routes r hist) (hc : Continues r r')
    (hattends : ∀ frames, (r.active ≠ none → Attends r frames) → r'.active ≠ none →
      Attends r' frames) (hx : ¬Supersedes x) (hno : heard x = none) :
    Inv routes r' (hist ++ [x]) :=
  h.continues (by rw [hc.queue]; exact hc) hattends (fun a ha => hc.queue ▸ ha) hx hno

theorem inv_frame (h : Inv routes r hist) (bus : UInt8) (f : Frame) (now : UInt64) :
    Inv routes (r.onFrame bus f now) (hist ++ [Trace.entry apply r (.frame bus f now)]) := by
  have hx : ¬Supersedes (Trace.entry apply r (.frame bus f now)) := by
    rintro (hx | hx) <;> cases hx
  by_cases hidle : r.active = none
  · -- no target, no frame
    have hno : ¬r.concerns bus f := by
      rintro ⟨i, hi, -⟩
      rw [hidle] at hi
      cases hi
    have hsame : r.onFrame bus f now = r := by
      simp [Router.onFrame, hno]
    rw [hsame]
    refine h.passes (.refl r) (fun _ hk => hk) hx ?_
    simp [heard, Router.hears, hno]
  obtain ⟨q, during, hq, hr⟩ := h.current hidle
  rcases Router.hears_onFrame (fun _ => hr.attends) bus f now with
    ⟨hactive, hhears⟩ | ⟨hc, hno, hattends⟩
  · have hstep := Router.continues_step r now
    have hframes : (during ++ [Trace.entry apply r (.frame bus f now)]).filterMap heard =
        during.filterMap heard ++ (r.hears bus f now).toList :=
      filterMap_snoc during _
    have hnext : Ongoing routes (hist ++ [Trace.entry apply r (.frame bus f now)]) q
        (during ++ [Trace.entry apply r (.frame bus f now)]) [] := by
      refine hq.hears hx fun hh => ?_
      have hheard : r.hears bus f now ≠ none := hh
      simp only [Router.hears] at hheard
      split at hheard
      · rename_i hcond
        obtain ⟨⟨i, hi, hext, hbus, hid⟩, hactive, hsent⟩ := hcond
        obtain rfl : q.idx = i := Option.some.inj (hr.active.symm.trans hi)
        have hleft := (Router.attends_step (fun _ => hr.attends) hactive).left hsent
        refine ⟨bus, f, now, rfl, hext, ?_, ?_, hleft.1, ?_⟩
        · rw [← hbus, Router.route, h.same]
        · rw [hid, Router.route, h.same]
        · exact hleft.2.trans (hstep.aborts.trans hr.aborts)
      · exact absurd rfl hheard
    have hc : Continues { r with queue := (r.onFrame bus f now).queue } (r.onFrame bus f now) := by
      have hmid : Continues { r with queue := (r.onFrame bus f now).queue }
          { r.step now with queue := (r.onFrame bus f now).queue } :=
        ⟨hstep.routes, hstep.ticket, hstep.request, hstep.aborts, hstep.active, rfl⟩
      exact hmid.trans hhears.continues
    constructor
    case same => exact hc.routes.trans h.same
    case current =>
      intro hflight
      refine ⟨q, _, hnext, ?_⟩
      rw [hframes]
      exact hr.continues hc hflight (hhears.attends hflight)
    case queue =>
      obtain ⟨new, hnew, hanswered⟩ := hhears.queue
      intro a ha
      rw [hnew, hstep.queue, List.mem_append] at ha
      rcases ha with ha | ha
      · exact (h.queue a ha).passes hx
      · have hans := hanswered a ha
        refine ⟨q, _, [], hnext, hans.ticket.trans (hstep.ticket.trans hr.ticket), ?_, ?_, ?_⟩
        · rw [hans.logical, (hstep.active.resolve_left hactive).trans hr.active, Router.route, hstep.routes, h.same]
          rfl
        · rw [← hr.request.1, ← hr.request.2, ← hstep.request.1, ← hstep.request.2]
          exact hans.answers
        · rw [hframes]
          exact hans.carried
  · exact h.passes hc hattends hx hno

/-- An exchange begins with its request on the link and nothing received. -/
theorem begin_spec (r : Router) (idx : ℕ) (req : List UInt8) (ticket : UInt32) (now : UInt64) :
    (r.begin idx req ticket now).2.queue = [] ∧ (r.begin idx req ticket now).2.routes = r.routes ∧
      (((r.begin idx req ticket now).1 ≠ .accepted ∧
          (r.begin idx req ticket now).2.active = none) ∨
        ((r.begin idx req ticket now).1 = .accepted ∧
          Carrying (r.begin idx req ticket now).2
            ⟨idx, req, ticket, (r.begin idx req ticket now).2.link.txAborts⟩ [])) := by
  simp only [Router.begin]
  split
  · exact ⟨rfl, rfl, .inl ⟨fun h => (by cases h), rfl⟩⟩
  · refine ⟨rfl, rfl, .inr ⟨rfl, rfl, rfl, ⟨rfl, rfl⟩, rfl, ?_, ?_, fun h => (by cases h), fun h => (by cases h)⟩⟩
    · simp only [Link.send]
      split <;> rfl
    · intro _
      simp only [Link.send]
      split <;> rfl

theorem inv_accept (h : Inv routes r hist) (idx : ℤ) (req : List UInt8) (conn ticket : UInt32)
    (unlocked : UInt8) (now : UInt64) :
    Inv routes (r.accept idx req conn ticket unlocked now).2
      (hist ++ [Trace.entry apply r (.accept idx req conn ticket unlocked now)]) := by
  generalize hentry : Trace.entry apply r (.accept idx req conn ticket unlocked now) = x
  have hno : heard x = none := by
    rw [← hentry]
    rfl
  have hlabel : x.label = some (r.accept idx req conn ticket unlocked now).1 := by
    rw [← hentry]
    rfl
  have hevent : x.event = .accept idx req conn ticket unlocked now := by
    rw [← hentry]
    rfl
  have hafter : x.after = (r.accept idx req conn ticket unlocked now).2 := by
    rw [← hentry]
    rfl
  have hdeclined : (r.accept idx req conn ticket unlocked now).1 ≠ .accepted → ¬Supersedes x := by
    rintro hv (hx | hx)
    · rw [hevent] at hx
      cases hx
    · rw [hlabel] at hx
      exact hv (Option.some.inj hx)
  have hstep := Router.continues_step r now
  have hbind := hstep.trans (Router.continues_bindRoute (r.step now) conn unlocked)
  have hattends : ∀ frames, (r.active ≠ none → Attends r frames) →
      ((r.step now).bindRoute conn unlocked).active ≠ none →
      Attends ((r.step now).bindRoute conn unlocked) frames := by
    intro frames hk ha
    have hsame := Router.same_bindRoute (r.step now) conn unlocked
    refine hsame.attends ?_ (Router.attends_step hk (hsame.active ▸ ha))
    exact (Router.continues_bindRoute (r.step now) conn unlocked).aborts
  revert hlabel hafter hdeclined
  simp only [Router.accept]
  split
  · intro _ _ hdeclined
    exact h.passes hstep (fun _ hk ha => Router.attends_step hk ha) (hdeclined fun h => (by cases h)) hno
  split
  · intro _ _ hdeclined
    exact h.passes hstep (fun _ hk ha => Router.attends_step hk ha) (hdeclined fun h => (by cases h)) hno
  rename_i hroute _
  split
  · intro _ _ hdeclined
    exact h.passes hbind hattends (hdeclined fun h => (by cases h)) hno
  split
  · intro _ _ hdeclined
    exact h.passes hbind hattends (hdeclined fun h => (by cases h)) hno
  intro hlabel hafter hdeclined
  generalize (r.step now).bindRoute conn unlocked = r₁ at hbind hlabel hafter ⊢
  obtain ⟨hqueue, hroutes, hcases⟩ := begin_spec r₁ idx.toNat req ticket now
  constructor
  case same => exact hroutes.trans (hbind.routes.trans h.same)
  case current =>
    intro hactive
    rcases hcases with ⟨-, hnone⟩ | ⟨hv, hc⟩
    · exact absurd hnone hactive
    · have hbegins : Request.begins ⟨idx.toNat, req, ticket,
          (r₁.begin idx.toNat req ticket now).2.link.txAborts⟩ x := by
        refine ⟨⟨conn, unlocked, now, ?_⟩, ?_, ?_⟩
        · rw [hevent]
          simp only [not_or, Int.not_lt] at hroute
          simp only [Int.toNat_of_nonneg hroute.1]
        · rw [hlabel, hv]
        · rw [hafter]
      exact ⟨_, [], ⟨⟨hist, x, rfl, hbegins⟩, by simp, by simp⟩, hc⟩
  case queue =>
    intro a ha
    rw [hqueue] at ha
    cases ha

theorem queue_pop (r : Router) : r.pop.queue = r.queue.tail := by
  simp only [Router.pop]
  split
  · rename_i hq
    rw [hq]
    rfl
  · rename_i hq
    rw [hq]
    rfl

theorem inv_apply (h : Inv routes r hist) (e : Event) :
    Inv routes (apply r e).1 (hist ++ [Trace.entry apply r e]) := by
  have hplain : ∀ e : Event, (apply r e).2 = none → e ≠ .cancel →
      ¬Supersedes (Trace.entry apply r e) := by
    rintro e hl he (hx | hx)
    · exact he hx
    · rw [Trace.entry_label, hl] at hx
      cases hx
  cases e with
  | accept idx req conn ticket unlocked now => exact inv_accept h idx req conn ticket unlocked now
  | frame bus f now => exact inv_frame h bus f now
  | hold unlocked =>
    refine h.passes (Router.continues_hold r unlocked) ?_ (hplain _ rfl nofun) rfl
    intro frames hk ha
    have hsame := Router.same_hold r unlocked
    exact hsame.attends (Router.continues_hold r unlocked).aborts (hk (hsame.active ▸ ha))
  | step now =>
    exact h.passes (Router.continues_step r now) (fun _ hk ha => Router.attends_step hk ha)
      (hplain _ rfl nofun) rfl
  | produce now channel =>
    have hpump := (Router.continues_step r now).trans (Router.continues_pump _ now channel)
    refine h.passes hpump ?_ (hplain _ rfl nofun) rfl
    intro frames hk ha
    exact Router.attends_pump (fun hx => Router.attends_step hk hx) channel ha
  | room now =>
    refine h.passes (Router.continues_room r now) ?_ (hplain _ rfl nofun) rfl
    intro frames hk ha
    have hsame := Router.same_room r now
    exact hsame.attends (Router.continues_room r now).aborts (hk (hsame.active ▸ ha))
  | pop =>
    refine h.continues (Router.continues_pop r) ?_ ?_ (hplain _ rfl nofun) rfl
    · intro frames hk ha
      have hsame := Router.same_pop r
      exact hsame.attends (Router.continues_pop r).aborts (hk (hsame.active ▸ ha))
    · intro a ha
      rw [show (apply r .pop).1.queue = r.queue.tail from queue_pop r] at ha
      exact List.mem_of_mem_tail ha
  | cancel => exact ⟨h.same, fun hx => absurd rfl hx, nofun⟩

end Steps

/-! ## What is handed over -/

/-- The answers handed over, in order. -/
def delivered (hist : List Entry) : List Answer :=
  hist.filterMap fun x =>
    match x.event with
    | .pop => x.before.queue.head?
    | _ => none

/-- The answers that received frames completed, in order. -/
def completed (hist : List Entry) : List Answer :=
  hist.flatMap fun x =>
    match x.event with
    | .frame _ _ _ => x.after.queue.drop x.before.queue.length
    | _ => []

/-- What every step of a run meets. -/
structure Attributed (routes : List Route) (hist : List Entry) (x : Entry) : Prop where
  /-- What waits, and what is handed over, is owed to the last request. -/
  waiting : ∀ a ∈ x.after.queue, Owed routes (hist ++ [x]) a
  handed : ∀ a, x.event = .pop → x.before.queue.head? = some a → Owed routes hist a
  /-- In order, and none of them twice. -/
  order : (delivered (hist ++ [x]) ++ x.after.queue).Sublist (completed (hist ++ [x]))

section Order

variable {r : Router} {hist : List Entry}

/-- A frame only adds to what waits. -/
theorem queue_collect (r : Router) (now : UInt64) : ∃ new, (r.collect now).queue = r.queue ++ new := by
  simp only [Router.collect]
  split
  · exact ⟨[], by simp⟩
  split
  · exact ⟨[], by simp⟩
  split
  · exact ⟨[], by simp⟩
  split
  · exact ⟨[], by simp⟩
  split <;> exact ⟨[_], rfl⟩

theorem queue_onFrame (r : Router) (bus : UInt8) (f : Frame) (now : UInt64) :
    ∃ new, (r.onFrame bus f now).queue = r.queue ++ new := by
  have hstep := (Router.continues_step r now).queue
  simp only [Router.onFrame]
  split
  · exact ⟨[], by simp⟩
  split
  · exact ⟨[], by simp [hstep]⟩
  split
  · exact ⟨[], by simp [hstep]⟩
  rw [← hstep]
  generalize r.step now = r₁
  have hmoved : ∀ r' : Router, (if r'.link.progress ≠ r₁.link.progress then
      { r' with movedAt := now } else r').queue = r'.queue := by
    intro r'
    split <;> rfl
  simp only [Router.intake, hmoved]
  split
  · exact queue_collect _ now
  · exact ⟨[], by simp⟩

/-- A request leaves what waits, or clears it. -/
theorem queue_accept (r : Router) (idx : ℤ) (req : List UInt8) (conn ticket : UInt32)
    (unlocked : UInt8) (now : UInt64) :
    (r.accept idx req conn ticket unlocked now).2.queue = r.queue ∨
      (r.accept idx req conn ticket unlocked now).2.queue = [] := by
  have hstep := Router.continues_step r now
  have hbind := hstep.trans (Router.continues_bindRoute (r.step now) conn unlocked)
  simp only [Router.accept]
  split
  · exact .inl hstep.queue
  split
  · exact .inl hstep.queue
  split
  · exact .inl hbind.queue
  split
  · exact .inl hbind.queue
  · exact .inr (begin_spec _ idx.toNat req ticket now).1

theorem order_apply (h : (delivered hist ++ r.queue).Sublist (completed hist)) (e : Event) :
    (delivered (hist ++ [Trace.entry apply r e]) ++ (apply r e).1.queue).Sublist
      (completed (hist ++ [Trace.entry apply r e])) := by
  -- an event that hands nothing over, and keeps or clears what waits
  have hkeeps : ∀ e : Event, (∀ bus f now, e ≠ .frame bus f now) → e ≠ .pop →
      (apply r e).1.queue = r.queue ∨ (apply r e).1.queue = [] →
      (delivered (hist ++ [Trace.entry apply r e]) ++ (apply r e).1.queue).Sublist
        (completed (hist ++ [Trace.entry apply r e])) := by
    intro e hframe hpop hqueue
    have hd : delivered (hist ++ [Trace.entry apply r e]) = delivered hist := by
      cases e <;> simp_all [delivered]
    have hc : completed (hist ++ [Trace.entry apply r e]) = completed hist := by
      cases e <;> simp_all [completed]
    rw [hd, hc]
    rcases hqueue with hq | hq
    · rwa [hq]
    · rw [hq, List.append_nil]
      exact (List.sublist_append_left _ _).trans h
  cases e with
  | accept idx req conn ticket unlocked now =>
    exact hkeeps _ nofun nofun (queue_accept r idx req conn ticket unlocked now)
  | hold unlocked => exact hkeeps _ nofun nofun (.inl (Router.continues_hold r unlocked).queue)
  | step now => exact hkeeps _ nofun nofun (.inl (Router.continues_step r now).queue)
  | produce now channel =>
    exact hkeeps _ nofun nofun
      (.inl ((Router.continues_step r now).trans (Router.continues_pump _ now channel)).queue)
  | room now => exact hkeeps _ nofun nofun (.inl (Router.continues_room r now).queue)
  | cancel => exact hkeeps _ nofun nofun (.inr rfl)
  | frame bus f now =>
    obtain ⟨new, hnew⟩ := queue_onFrame r bus f now
    have hd : delivered (hist ++ [Trace.entry apply r (.frame bus f now)]) = delivered hist := by
      simp [delivered]
    have hc : completed (hist ++ [Trace.entry apply r (.frame bus f now)]) =
        completed hist ++ new := by
      simp [completed, apply, hnew]
    rw [hd, hc, show (apply r (.frame bus f now)).1.queue = r.queue ++ new from hnew,
      ← List.append_assoc]
    exact h.append_right new
  | pop =>
    have hd : delivered (hist ++ [Trace.entry apply r .pop]) =
        delivered hist ++ r.queue.head?.toList := by
      cases hq : r.queue <;> simp [delivered, hq]
    have hc : completed (hist ++ [Trace.entry apply r .pop]) = completed hist := by
      simp [completed]
    have hqueue : r.queue.head?.toList ++ r.queue.tail = r.queue := by
      cases r.queue <;> rfl
    rw [hd, hc, show (apply r .pop).1.queue = r.queue.tail from queue_pop r, List.append_assoc,
      hqueue]
    exact h

end Order

end BloblyEmb.Diagroute
