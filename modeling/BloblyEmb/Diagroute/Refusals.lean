import BloblyEmb.Diagroute.Grants

/-!
# Requests that are refused

A request is judged after the timers have run. Whatever refuses it, its target, its length, the
grant of the route or the request before it, does so before anything of the exchange in flight is
touched: what `accept` leaves is what the step alone would have left, apart from who holds the
route. Past the last of these checks the link is free and takes the request.
-/
namespace BloblyEmb.Diagroute
open Isotp (maxPayload)

/-- Two routers agree on everything but the grant of the route. -/
structure Untouched (r r' : Router) : Prop where
  link : r'.link = r.link
  queue : r'.queue = r.queue
  ticket : r'.ticket = r.ticket
  active : r'.active = r.active
  request : r'.reqHead = r.reqHead ∧ r'.reqFull = r.reqFull
  sending : r'.sending = r.sending ∧ r'.aborts = r.aborts
  times : r'.movedAt = r.movedAt ∧ r'.deadline = r.deadline
  room : r'.fullHeld = r.fullHeld ∧ r'.fullSince = r.fullSince
  sent : r'.forwarded = r.forwarded ∧ r'.answered = r.answered
  ended : r'.timeouts = r.timeouts ∧ r'.failed = r.failed
  dropped : r'.stale = r.stale ∧ r'.lost = r.lost
  table : r'.routes = r.routes ∧ r'.level = r.level

variable {r r' r'' : Router}

@[simp] theorem Untouched.refl (r : Router) : Untouched r r := by
  constructor <;> simp

theorem Untouched.trans (h : Untouched r r') (h' : Untouched r' r'') : Untouched r r'' where
  link := h'.link.trans h.link
  queue := h'.queue.trans h.queue
  ticket := h'.ticket.trans h.ticket
  active := h'.active.trans h.active
  request := ⟨h'.request.1.trans h.request.1, h'.request.2.trans h.request.2⟩
  sending := ⟨h'.sending.1.trans h.sending.1, h'.sending.2.trans h.sending.2⟩
  times := ⟨h'.times.1.trans h.times.1, h'.times.2.trans h.times.2⟩
  room := ⟨h'.room.1.trans h.room.1, h'.room.2.trans h.room.2⟩
  sent := ⟨h'.sent.1.trans h.sent.1, h'.sent.2.trans h.sent.2⟩
  ended := ⟨h'.ended.1.trans h.ended.1, h'.ended.2.trans h.ended.2⟩
  dropped := ⟨h'.dropped.1.trans h.dropped.1, h'.dropped.2.trans h.dropped.2⟩
  table := ⟨h'.table.1.trans h.table.1, h'.table.2.trans h.table.2⟩

/-- Only the grant of the route changes. -/
theorem untouched_grant (r : Router) (granted bound : Bool) (conn : UInt32) :
    Untouched r { r with granted := granted, bound := bound, grantConn := conn } := by
  constructor <;> simp

theorem untouched_hold (r : Router) (unlocked : UInt8) : Untouched r (r.hold unlocked) := by
  simp only [Router.hold]
  split
  · exact untouched_grant r true r.bound r.grantConn
  · simp

theorem untouched_bindRoute (r : Router) (conn : UInt32) (unlocked : UInt8) :
    Untouched r (r.bindRoute conn unlocked) := by
  have hnew : Untouched r (if r.granted ∧ r.bound ∧ r.grantConn ≠ conn then
      { r with granted := false, bound := false } else r) := by
    split
    · exact untouched_grant r false false r.grantConn
    · simp
  have hheld := hnew.trans (untouched_hold _ unlocked)
  simp only [Router.bindRoute]
  revert hheld
  generalize Router.hold (if r.granted ∧ r.bound ∧ r.grantConn ≠ conn then
    { r with granted := false, bound := false } else r) unlocked = held
  intro hheld
  split
  · exact hheld.trans (untouched_grant held held.granted true conn)
  · exact hheld

/-- A request of a length that the link carries is never refused by the link: the exchange before it
has ended, and the link sends nothing. -/
theorem begin_accepted (r : Router) (idx : ℕ) {req : List UInt8} (ticket : UInt32) (now : UInt64)
    (hn : ¬(req.length < 1 ∨ maxPayload < req.length)) :
    (r.begin idx req ticket now).1 = .accepted := by
  have hempty : req.length ≠ 0 := by omega
  have hlong : ¬maxPayload < req.length := by omega
  simp [Router.begin, Router.endExchange, Isotp.Link.send, Isotp.Link.abortTx, Isotp.Link.abortRx,
    List.length_eq_zero_iff.not.mp hempty, hlong]

/-- In every state, whatever the reason: a request that is not accepted leaves the link, the
exchange in flight, the answers and the ticket as the timers alone would have left them. -/
theorem refused_changes_nothing (r : Router) (idx : ℤ) (req : List UInt8) (conn ticket : UInt32)
    (unlocked : UInt8) (now : UInt64)
    (h : (r.accept idx req conn ticket unlocked now).1 ≠ .accepted) :
    Untouched (r.step now) (r.accept idx req conn ticket unlocked now).2 := by
  have hbound := untouched_bindRoute (r.step now) conn unlocked
  revert h
  simp only [Router.accept]
  split
  · intro _
    simp
  · by_cases hn : req.length < 1 ∨ maxPayload < req.length
    · rw [if_pos hn]
      intro _
      simp
    · rw [if_neg hn]
      split
      · intro _
        exact hbound
      · split
        · intro _
          exact hbound
        · intro h
          exact absurd (begin_accepted _ _ ticket now hn) h

/-- Nobody holds the route. -/
theorem refused_changes_nothing_locked :
    ((Router.init 3 0 [{ logical := 0x10 }]).accept 0 [0x3E, 0x00] 1 1 0 5).1 = .locked ∧
      Untouched ((Router.init 3 0 [{ logical := 0x10 }]).step 5)
        ((Router.init 3 0 [{ logical := 0x10 }]).accept 0 [0x3E, 0x00] 1 1 0 5).2 :=
  ⟨by decide, refused_changes_nothing _ 0 [0x3E, 0x00] 1 1 0 5 (by decide)⟩

end BloblyEmb.Diagroute
