import BloblyEmb.Lib.Trace
import BloblyEmb.Diag.Connection

/-!
# A reset and its answer

A reset that a request orders waits for the answer of that request, on whichever side it leaves, and
for whatever answer of the network is still on its way. Until then no request is served, and it is
cancelled when that answer is lost.
-/
namespace BloblyEmb.Uds.Application.Server

variable {ε : Type} {h : Hooks ε} {cfg : Config}

/-! ## What orders a reset -/

/-- A request orders a reset only with a short answer; any other leaves the pending reset. -/
def Orders (s s' : Server ε) (r : Reply) : Prop := s'.resetReq = s.resetReq ∨ r.len ≤ 7

theorem len_suppressible (sub : UInt8) (bytes : List UInt8) :
    (Reply.suppressible sub bytes).len ≤ bytes.length := by
  simp only [Reply.suppressible]
  split
  · exact Nat.zero_le _
  · exact Nat.le_refl _

theorem resetReq_enterSession (s : Server ε) (session : UInt8) :
    (s.enterSession h session).resetReq = s.resetReq := by
  simp only [enterSession, restoreDtcSetting]
  split
  · split <;> rfl
  · rfl

theorem resetReq_tick (s : Server ε) (now : ℕ) : (s.tick h cfg now).resetReq = s.resetReq := by
  have hstart : (s.startDelay cfg now).resetReq = s.resetReq := by
    simp only [startDelay]
    split <;> rfl
  simp only [tick]
  split
  · exact (resetReq_enterSession _ _).trans hstart
  · exact hstart

theorem orders_sessionControl (s : Server ε) (req : List UInt8) :
    Orders s (s.sessionControl h cfg req).1 (s.sessionControl h cfg req).2 := by
  simp only [sessionControl]
  repeat' (split; exact .inl rfl)
  split
  · simp only [handOff]
    split
    · exact .inl rfl
    split
    · exact .inr (Nat.le_trans (len_suppressible _ _) (by simp [Uds.Server.sessionAnswer]))
    · split
      · exact .inr (Nat.le_trans (len_suppressible _ _) (by simp [Uds.Server.sessionAnswer]))
      · exact .inl rfl
  · exact .inl (resetReq_enterSession s _)

theorem orders_ecuReset (s : Server ε) (req : List UInt8) :
    Orders s (s.ecuReset req).1 (s.ecuReset req).2 := by
  simp only [ecuReset]
  repeat' (split; exact .inl rfl)
  exact .inr (Nat.le_trans (len_suppressible _ _) (by simp))

theorem orders_securityAccess (ops : SecurityOps ε) (s : Server ε) (req : List UInt8) :
    Orders s (s.securityAccess ops cfg req).1 (s.securityAccess ops cfg req).2 := by
  simp only [securityAccess, requestSeed, sendKey]
  repeat' (split; exact .inl rfl)
  split
  · repeat' (split; exact .inl rfl)
    exact .inl rfl
  · repeat' (split; exact .inl rfl)
    split
    · split <;> exact .inl rfl
    · exact .inl rfl

theorem orders_readDid (s : Server ε) (req : List UInt8) :
    Orders s (s.readDid req).1 (s.readDid req).2 := by
  simp only [readDid]
  split
  · exact .inl rfl
  split
  · exact .inl rfl
  · repeat' (split; exact .inl rfl)
    exact .inl rfl

theorem orders_writeDid (s : Server ε) (req : List UInt8) :
    Orders s (s.writeDid h req).1 (s.writeDid h req).2 := by
  simp only [writeDid, storeDid]
  split
  · exact .inl rfl
  split
  · exact .inl rfl
  repeat' (split; exact .inl rfl)
  split
  · split
    · exact .inl rfl
    · split <;> exact .inl rfl
  · exact .inl rfl

theorem orders_readDtcs (mem : MemoryOps ε) (s : Server ε) (req : List UInt8) :
    Orders s (s.readDtcs h cfg mem req).1 (s.readDtcs h cfg mem req).2 := by
  left
  simp only [readDtcs]
  repeat' (split; rfl)
  split
  · split <;> rfl
  · split <;> rfl

theorem orders_serve (s : Server ε) (sid : UInt8) (req : List UInt8) :
    Orders s (s.serve h cfg sid req).1 (s.serve h cfg sid req).2 := by
  refine serve_cases (P := fun _ f => Orders s (f req).1 (f req).2)
    h cfg s ?_ ?_ ?_ ?_ ?_ ?_ ?_ ?_ ?_ ?_ ?_ sid
  · left
    simp only [testerPresent]
    repeat' (split; rfl)
    rfl
  · exact orders_sessionControl s req
  · exact orders_ecuReset s req
  · exact orders_readDid s req
  · exact fun ops _ => orders_securityAccess ops s req
  · intro mem _
    left
    simp only [clearDtcs]
    split
    · rfl
    · split <;> rfl
  · exact fun mem _ => orders_readDtcs mem s req
  · intro set _
    left
    simp only [dtcSetting]
    repeat' (split; rfl)
    rfl
  · left
    simp only [communicationControl]
    repeat' (split; rfl)
    rfl
  · exact orders_writeDid s req
  · exact fun _ => .inl rfl

theorem orders_dispatch (s : Server ε) (req : List UInt8) :
    Orders s (s.dispatch h cfg req).1 (s.dispatch h cfg req).2 := by
  cases req with
  | nil => exact .inl rfl
  | cons sid rest =>
    simp only [dispatch]
    repeat' (split; exact .inl rfl)
    exact orders_serve s.stamped sid (sid :: rest)

theorem orders_handleFunctional (s : Server ε) (req : List UInt8) :
    Orders s (s.handleFunctional h cfg req).1 (s.handleFunctional h cfg req).2 := by
  simp only [handleFunctional]
  split
  · exact .inl rfl
  · split
    · exact .inr (Nat.zero_le _)
    · exact orders_dispatch s req

end BloblyEmb.Uds.Application.Server

namespace BloblyEmb.Diag
open Isotp (Link TxPhase maxPayload)
open Uds.Application

/-! ## An answer of one frame -/

/-- The frame is a single frame: a whole answer. -/
def isSingle (f : Frame) : Bool := f.data.getD 0 0 &&& 0xF0 == 0

/-- The link has nothing to send, or an answer of one frame. -/
structure Brief (l : Link) : Prop where
  tx : l.tx = .idle ∨ l.tx = .sendSf
  short : l.tx = .sendSf → l.txLen ≤ 7

theorem brief_idle {l : Link} (h : l.tx = .idle) : Brief l :=
  ⟨.inl h, fun hx => by rw [h] at hx; cases hx⟩

theorem Brief.tick {l : Link} (h : Brief l) (now : UInt64) :
    Brief (l.tick now) ∧ (l.tick now).tx = l.tx := by
  have hbs : ¬l.bsExpired now := by
    rcases h.tx with hx | hx <;> simp [Link.bsExpired, hx]
  simp only [Link.tick, if_neg hbs]
  split
  · exact ⟨⟨h.tx, h.short⟩, rfl⟩
  · exact ⟨h, rfl⟩

theorem Brief.onFrame {l : Link} (h : Brief l) (now : UInt64) (p : Isotp.Pdu) :
    Brief (l.onFrame now p) ∧ (l.onFrame now p).tx = l.tx := by
  have hwait : l.tx ≠ .waitFc := by
    rcases h.tx with hx | hx <;> simp [hx]
  have hsame : (l.onFrame now p).tx = l.tx ∧ (l.onFrame now p).txLen = l.txLen := by
    simp only [Link.onFrame, Link.onSingle, Link.onFirst, Link.onConsecutive, Link.inSequence,
      Link.onFlow, if_pos hwait]
    grind
  refine ⟨⟨by rw [hsame.1]; exact h.tx, fun hx => ?_⟩, hsame.1⟩
  rw [hsame.2]
  exact h.short (hsame.1 ▸ hx)

theorem Brief.takeFrame {l : Link} (h : Brief l) (now : UInt64) (f : Frame) :
    Brief (takeFrame l now f).2 ∧ (takeFrame l now f).2.tx = l.tx := by
  simp only [Diag.takeFrame]
  split
  · exact ⟨h, rfl⟩
  split
  · exact ⟨h, rfl⟩
  · exact h.onFrame now _

/-- Nothing is left to send. -/
structure Done (l : Link) : Prop where
  tx : l.tx = .idle
  noFlow : l.fcSend = false
  noRefusal : l.fcOvflw = false

theorem Done.pump {l : Link} (h : Done l) (txId : UInt32) (now : UInt64) (channel : List Bool) :
    pumpLink l txId now channel = (true, l, []) := by
  cases channel with
  | nil => rfl
  | cons ok rest => simp [pumpLink, nextFrame, Link.poll, h.tx, h.noFlow, h.noRefusal]

/-- The next frame: none, a flow control, or the answer. -/
theorem Brief.nextFrame {l : Link} (h : Brief l) (txId : UInt32) (now : UInt64) :
    ((nextFrame l txId now).1 = none ∧ (nextFrame l txId now).2 = l ∧ l.tx = .idle) ∨
      (∃ f, (nextFrame l txId now).1 = some f ∧ isSingle f = false ∧
        Brief (nextFrame l txId now).2 ∧ (nextFrame l txId now).2.tx = l.tx) ∨
      ∃ f, (nextFrame l txId now).1 = some f ∧ isSingle f = true ∧ l.tx = .sendSf ∧
        Done (nextFrame l txId now).2 := by
  simp only [Diag.nextFrame, Link.poll]
  split
  · refine .inr (.inl ⟨_, rfl, ?_, ⟨h.tx, h.short⟩, rfl⟩)
    show ((0x32 : UInt8) &&& 0xF0 == 0) = false
    decide
  rename_i hov
  split
  · refine .inr (.inl ⟨_, rfl, ?_, ⟨h.tx, h.short⟩, rfl⟩)
    show ((0x30 : UInt8) &&& 0xF0 == 0) = false
    decide
  rename_i hfc
  rcases h.tx with htx | htx
  · rw [htx]
    exact .inl ⟨rfl, rfl, rfl⟩
  · rw [htx]
    refine .inr (.inr ⟨_, rfl, ?_, rfl, rfl, by simpa using hfc, by simpa using hov⟩)
    have hlen := h.short htx
    have hall : ∀ i : Fin 8, (UInt8.ofNat i &&& 0xF0 == 0) = true := by decide
    exact hall ⟨l.txLen, by omega⟩

/-- What sending leaves of an answer of one frame: it is sent, or still to be sent, or lost with a
refused frame. -/
theorem Brief.pump {l : Link} (h : Brief l) (txId : UInt32) (now : UInt64) (channel : List Bool) :
    Brief (pumpLink l txId now channel).2.1 ∧
      (l.tx = .idle → (pumpLink l txId now channel).2.1.tx = .idle ∧
        (pumpLink l txId now channel).2.2.any isSingle = false) ∧
      (l.tx = .sendSf →
        ((pumpLink l txId now channel).1 = true ∧ (pumpLink l txId now channel).2.1.tx = .idle ∧
            (pumpLink l txId now channel).2.2.any isSingle = true) ∨
          (((pumpLink l txId now channel).1 = true → (pumpLink l txId now channel).2.1.tx = .sendSf) ∧
            (pumpLink l txId now channel).2.2.any isSingle = false)) := by
  induction channel generalizing l with
  | nil => exact ⟨h, fun hx => ⟨hx, rfl⟩, fun hx => .inr ⟨fun _ => hx, rfl⟩⟩
  | cons ok rest ih =>
    simp only [pumpLink]
    rcases h.nextFrame txId now with ⟨hf, hl, htx⟩ | ⟨f, hf, hflow, hbrief, htx⟩ |
      ⟨f, hf, hsf, htx, hdone⟩
    · simp only [hf, hl]
      refine ⟨h, fun _ => ⟨htx, rfl⟩, fun hx => ?_⟩
      rw [htx] at hx
      cases hx
    · simp only [hf]
      split
      · exact ⟨brief_idle rfl, fun _ => ⟨rfl, rfl⟩, fun _ => .inr ⟨nofun, rfl⟩⟩
      · obtain ⟨hb, h₁, h₂⟩ := ih hbrief
        rw [htx] at h₁ h₂
        simp only [List.any_cons, hflow, Bool.false_or]
        exact ⟨hb, h₁, h₂⟩
    · simp only [hf]
      split
      · exact ⟨brief_idle rfl, fun _ => ⟨rfl, rfl⟩, fun _ => .inr ⟨nofun, rfl⟩⟩
      · rw [hdone.pump]
        simp only [List.any_cons, hsf, Bool.true_or]
        refine ⟨brief_idle hdone.tx, fun hx => ?_, fun _ => .inl ⟨trivial, hdone.tx, trivial⟩⟩
        rw [htx] at hx
        cases hx

variable {ε : Type} {node : Node ε} {c : Connection ε}

/-! ## The end of the network's connection -/

/-- What ends with the network's connection, once its reset and its session are dealt with. -/
def cut (c : Connection ε) : Connection ε :=
  { c with
    remoteOwns := false
    server := if c.unlockRemote then { c.server with unlocked := 0 } else c.server
    unlockRemote := false
    heldBack := if c.heldBackRemote then 0 else c.heldBack
    saLevel := Function.update c.saLevel true 0 }

/-- The reset that the network's connection takes along. -/
def dropReset (c : Connection ε) : Connection ε :=
  let c' := { c with remote := c.remote.dropped.2 }
  if c.remote.dropped.1 then c'.cancelReset else c'

/-- The session that it takes along. -/
def dropSession (node : Node ε) (c : Connection ε) : Connection ε :=
  if c.remoteOwns then { c with server := c.server.endSession node.hooks } else c

theorem remoteDropped_eq (node : Node ε) (c : Connection ε) :
    c.remoteDropped node = cut (dropSession node (dropReset c)) := by
  simp only [Connection.remoteDropped, dropReset]
  generalize (if c.remote.dropped.1 then _ else _ : Connection ε) = d
  simp only [cut, dropSession]
  split <;> split <;> split <;> rfl

/-! ## What the calls leave -/

namespace Connection

theorem cancelReset_spec (c : Connection ε) : c.cancelReset.server.resetReq = 0 ∧
    c.cancelReset.link = c.link ∧ c.cancelReset.remote = c.remote := by
  simp only [cancelReset]
  split <;> exact ⟨rfl, rfl, rfl⟩

theorem leave_spec (c : Connection ε) (before : UInt32) (held : UInt8) (remote : Bool) :
    (c.leave before held remote).server.resetReq = c.server.resetReq ∧
      (c.leave before held remote).link = c.link ∧
      (c.leave before held remote).remote = c.remote := by
  simp only [leave]
  split
  · split <;> exact ⟨rfl, rfl, rfl⟩
  split
  · split
    · split <;> exact ⟨rfl, rfl, rfl⟩
    · split <;> exact ⟨rfl, rfl, rfl⟩
  · split <;> exact ⟨rfl, rfl, rfl⟩

/-- A request orders a reset only with a short answer. -/
theorem handleFor_spec (node : Node ε) (c : Connection ε) (remote functional : Bool)
    (req : List UInt8) :
    (c.handleFor node remote functional req).1.link = c.link ∧
      (c.handleFor node remote functional req).1.remote = c.remote ∧
      ((c.handleFor node remote functional req).1.server.resetReq = c.server.resetReq ∨
        (c.handleFor node remote functional req).2.len ≤ 7) := by
  simp only [handleFor]
  obtain ⟨hreset, hlink, hremote⟩ := leave_spec { (c.enter remote).1 with
      server := { (if functional then
          { (c.enter remote).1.server with
            handoffElsewhere := remote && !node.handoffRemote }.handleFunctional node.hooks
              node.config req
        else { (c.enter remote).1.server with
            handoffElsewhere := remote && !node.handoffRemote }.handle node.hooks
              node.config req).1 with handoffElsewhere := false }
      resp := if remote then (c.enter remote).1.resp else Buffer.fill (c.enter remote).1.resp 0
        (if functional then
          { (c.enter remote).1.server with
            handoffElsewhere := remote && !node.handoffRemote }.handleFunctional node.hooks
              node.config req
        else { (c.enter remote).1.server with
            handoffElsewhere := remote && !node.handoffRemote }.handle node.hooks
              node.config req).2.stores } (c.enter remote).2.1 (c.enter remote).2.2 remote
  refine ⟨hlink, hremote, ?_⟩
  rw [hreset]
  split
  · exact Server.orders_handleFunctional _ req
  · exact Server.orders_dispatch _ req

/-- The answer goes into the link, or the reset is cancelled. -/
theorem sendAnswer_cases (c : Connection ε) (n : ℕ) :
    (n = 0 ∧ c.sendAnswer n = c) ∨
      (0 < n ∧ ∃ l, c.sendAnswer n = { c with link := l } ∧ l.tx ≠ .idle ∧ l.txLen = n ∧
        (n ≤ 7 → l.tx = .sendSf)) ∨
      ((c.sendAnswer n).server.resetReq = 0 ∧ (c.sendAnswer n).remote = c.remote) := by
  simp only [sendAnswer]
  split
  · rename_i hn
    have hlen : (Buffer.prefixOf c.resp n).length = n := Buffer.length_prefixOf ..
    right
    split
    · have hspec := cancelReset_spec { c with link := (c.link.send (Buffer.prefixOf c.resp n)).2 }
      exact .inr ⟨hspec.1, hspec.2.2⟩
    · rename_i hsent
      refine .inl ⟨hn, _, rfl, ?_⟩
      simp only [Link.send] at hsent ⊢
      split at hsent
      · exact absurd rfl hsent
      · rename_i hno
        rw [if_neg hno]
        refine ⟨?_, hlen, fun hshort => if_pos (by rw [hlen]; exact hshort)⟩
        dsimp only
        split <;> simp
  · exact .inl ⟨by omega, rfl⟩

/-- The calls that end the network's connection leave the link, and cancel its own reset only. -/
theorem remoteDropped_spec (node : Node ε) (c : Connection ε) :
    (c.remoteDropped node).link = c.link ∧ (c.remoteDropped node).remote = c.remote.dropped.2 ∧
      (c.remoteDropped node).server.resetReq =
        if c.remote.dropped.1 then 0 else c.server.resetReq := by
  have hcut (d : Connection ε) : (cut d).link = d.link ∧ (cut d).remote = d.remote ∧
      (cut d).server.resetReq = d.server.resetReq := by
    simp only [cut, true_and]
    split <;> rfl
  have hsession (d : Connection ε) : (dropSession node d).link = d.link ∧
      (dropSession node d).remote = d.remote ∧
      (dropSession node d).server.resetReq = d.server.resetReq := by
    simp only [dropSession]
    split
    · exact ⟨rfl, rfl, Server.resetReq_enterSession _ _⟩
    · exact ⟨rfl, rfl, rfl⟩
  have hreset : (dropReset c).link = c.link ∧ (dropReset c).remote = c.remote.dropped.2 ∧
      (dropReset c).server.resetReq = if c.remote.dropped.1 then 0 else c.server.resetReq := by
    simp only [dropReset]
    split
    · obtain ⟨hreq, hlink, hremote⟩ := cancelReset_spec { c with remote := c.remote.dropped.2 }
      exact ⟨hlink, hremote, hreq⟩
    · exact ⟨rfl, rfl, rfl⟩
  obtain ⟨hlink, hremote, hreq⟩ := hcut (dropSession node (dropReset c))
  obtain ⟨hlink', hremote', hreq'⟩ := hsession (dropReset c)
  rw [remoteDropped_eq, hlink, hremote, hreq, hlink', hremote', hreq']
  exact hreset

end Connection

/-! ## What an observer knows -/

/-- The reset that is pending: who asked for it, and whether its answer has left. -/
structure Order where
  remote : Bool
  left : Bool
deriving DecidableEq

/-- The network acknowledges its answer. -/
def Event.acknowledges : Event → Bool
  | .remoteSent => true
  | _ => false

/-- The order after a call: the request served made it, its answer leaves, or it is gone. -/
def Order.after (o : Option Order) (x : Trace.Entry (Connection ε) Event Log) : Option Order :=
  if x.after.server.resetReq = 0 then none
  else if x.label.ordered then
    x.label.served.map fun served => ⟨served.1, !served.1 && served.2 == 0⟩
  else o.map fun o => { o with
    left := o.left || if o.remote then x.event.acknowledges else x.label.sent.any isSingle }

def orderOf (hist : List (Trace.Entry (Connection ε) Event Log)) : Option Order :=
  hist.foldl Order.after none

/-- An answer of the network is on its way. -/
def onItsWay (hist : List (Trace.Entry (Connection ε) Event Log)) : Bool :=
  hist.foldl (fun way x => match x.event with
    | .remoteRequest .. => true
    | .remoteSent | .remoteDropped => false
    | _ => way) false

/-- The answer of the order is lost: the network is gone before it acknowledged it, or the channel
refuses a frame before it left. -/
def Lost (o : Order) (x : Trace.Entry (Connection ε) Event Log) : Prop :=
  o.left = false ∧ if o.remote then x.event = .remoteDropped else
    x.label.refused = true ∧ x.label.sent.any isSingle = false

/-- What holds of each call of a run. -/
structure KeepsReset (hist : List (Trace.Entry (Connection ε) Event Log))
    (x : Trace.Entry (Connection ε) Event Log) : Prop where
  due : x.after.resetDue ≠ 0 →
    (∃ o ∈ orderOf (hist ++ [x]), o.left = true) ∧ onItsWay (hist ++ [x]) = false
  performed : x.label.performed = true → onItsWay hist = false ∧
    ((∃ o ∈ orderOf hist, o.left = true) ∨
      x.label.ordered = true ∧ x.label.served = some (false, 0))
  cancelled : x.before.server.resetReq ≠ 0 → x.label.performed = false →
    (x.after.server.resetReq = 0 ↔ ∃ o ∈ orderOf hist, Lost o x)
  waits : x.before.server.resetReq ≠ 0 → x.label.served = none

/-- The channel refuses no frame behind the answer of a pending reset that the bus asked for. -/
def Spares (x : Trace.Entry (Connection ε) Event Log) : Prop :=
  ¬(x.before.server.resetReq ≠ 0 ∧ x.before.remote.reset = false ∧ x.before.link.busy = false ∧
    x.label.refused = true)

instance (x : Trace.Entry (Connection ε) Event Log) : Decidable (Spares x) :=
  inferInstanceAs (Decidable (¬_))

@[simp] theorem orderOf_snoc (hist : List (Trace.Entry (Connection ε) Event Log))
    (x : Trace.Entry (Connection ε) Event Log) :
    orderOf (hist ++ [x]) = Order.after (orderOf hist) x := by
  simp [orderOf, List.foldl_append]

/-- The connection agrees with the observer. -/
structure Follows (c : Connection ε) (o : Option Order) (way : Bool) : Prop where
  flight : c.remote.inflight = way
  clear : c.server.resetReq = 0 → o = none
  pending : c.server.resetReq ≠ 0 → ∃ p, o = some p ∧ c.remote.reset = p.remote ∧
    (p.remote = true → c.remote.acked = p.left ∧ (p.left = false → way = true)) ∧
    (p.remote = false → Brief c.link ∧ (p.left = true ↔ c.link.tx = .idle))

/-- A reset that is due has been answered. -/
theorem Follows.due {o : Option Order} {way : Bool} (h : Follows c o way) (hd : c.resetDue ≠ 0) :
    (∃ p ∈ o, p.left = true) ∧ way = false := by
  have hdue : c.server.resetReq ≠ 0 ∧ c.link.busy = false ∧ c.remote.inflight = false := by
    by_contra hno
    exact hd (if_neg hno)
  obtain ⟨hreq, hbusy, hflight⟩ := hdue
  have hway : way = false := h.flight.symm.trans hflight
  obtain ⟨p, rfl, -, hnet, hbus⟩ := h.pending hreq
  refine ⟨⟨p, rfl, ?_⟩, hway⟩
  cases hp : p.remote with
  | true =>
    by_contra hleft
    have hflies := (hnet hp).2 (by simpa using hleft)
    rw [hway] at hflies
    cases hflies
  | false => exact (hbus hp).2.mpr (by simpa [Link.busy] using hbusy)

/-- The observer's view of the network after a call. -/
def Event.way (e : Event) (way : Bool) : Bool :=
  match e with
  | .remoteRequest .. => true
  | .remoteSent | .remoteDropped => false
  | _ => way

@[simp] theorem onItsWay_snoc (hist : List (Trace.Entry (Connection ε) Event Log))
    (x : Trace.Entry (Connection ε) Event Log) :
    onItsWay (hist ++ [x]) = x.event.way (onItsWay hist) := by
  simp only [onItsWay, List.foldl_append, List.foldl_cons, List.foldl_nil]
  rfl

section Steps
variable {o : Option Order} {way : Bool}

/-- No reset is pending. -/
theorem follows_clear {c : Connection ε} (hreq : c.server.resetReq = 0) (hway : c.remote.inflight = way)
    (x : Trace.Entry (Connection ε) Event Log) (hx : x.after = c) :
    Follows c (Order.after o x) way where
  flight := hway
  clear _ := if_pos (by rw [hx]; exact hreq)
  pending hne := absurd hreq hne

/-- A call that neither serves a request nor moves an answer. -/
theorem follows_kept {c c' : Connection ε} (h : Follows c o way)
    (hreq : c'.server.resetReq = c.server.resetReq) (hremote : c'.remote = c.remote)
    (hlink : Brief c.link → Brief c'.link ∧ c'.link.tx = c.link.tx)
    (x : Trace.Entry (Connection ε) Event Log) (hx : x.after = c') (hno : x.label.ordered = false)
    (hack : x.event.acknowledges = false) (hsent : x.label.sent = []) :
    Follows c' (Order.after o x) way := by
  by_cases hzero : c.server.resetReq = 0
  · exact follows_clear (hreq.trans hzero) (by rw [hremote]; exact h.flight) x hx
  have hstill : c'.server.resetReq ≠ 0 := by
    rw [hreq]
    exact hzero
  obtain ⟨p, rfl, hasked, hnet, hbus⟩ := h.pending hzero
  have hafter : Order.after (some p) x = some p := by
    have hne : x.after.server.resetReq ≠ 0 := by
      rw [hx]
      exact hstill
    simp only [Order.after, if_neg hne, hno, Bool.false_eq_true, if_false, Option.map_some, hack,
      hsent, List.any_nil, ite_self, Bool.or_false]
  rw [hafter]
  refine ⟨by rw [hremote]; exact h.flight, fun hz => absurd hz hstill, fun _ =>
    ⟨p, rfl, by rw [hremote]; exact hasked, by rw [hremote]; exact hnet, fun hp => ?_⟩⟩
  obtain ⟨hbrief, hleft⟩ := hbus hp
  obtain ⟨hbrief', htx⟩ := hlink hbrief
  rw [htx]
  exact ⟨hbrief', hleft⟩

/-- A request of the bus, with nothing to send before. -/
theorem follows_serveBus {c : Connection ε} (h : Follows c o way) (hreq : c.server.resetReq = 0)
    (htx : c.link.tx = .idle) (functional : Bool) (req : List UInt8)
    (x : Trace.Entry (Connection ε) Event Log) (hx : x.after = (c.serveBus node functional req).1)
    (hlabel : x.label.ordered = (c.serveBus node functional req).2.ordered ∧
      x.label.served = (c.serveBus node functional req).2.served) :
    Follows (c.serveBus node functional req).1 (Order.after o x) way ∧
      ((c.serveBus node functional req).1.resetDue ≠ 0 → way = false ∧
        (c.serveBus node functional req).2.ordered = true ∧
        (c.serveBus node functional req).2.served = some (false, 0)) := by
  obtain ⟨hlink, hremote, horders⟩ := (c.refreshDids node).handleFor_spec node false functional req
  generalize hh : (c.refreshDids node).handleFor node false functional req = handled at *
  have hserve : c.serveBus node functional req =
      ({ handled.1 with remote := handled.1.remote.asked false }.sendAnswer handled.2.len,
        { served := some (false, handled.2.len),
          ordered := decide (handled.1.server.resetReq ≠ 0) }) := by
    simp only [Connection.serveBus, hh]
  rw [hserve] at hx hlabel ⊢
  have hflight : handled.1.remote.inflight = way := by
    rw [hremote]
    exact h.flight
  have hidle : handled.1.link.tx = .idle := by
    rw [hlink]
    exact htx
  have hcalm : (c.refreshDids node).server.resetReq = 0 := hreq
  rw [hcalm] at horders
  have hnew (hne : handled.1.server.resetReq ≠ 0) (hafter : x.after.server.resetReq ≠ 0) :
      Order.after o x = some ⟨false, handled.2.len == 0⟩ := by
    have hordered : x.label.ordered = true := by
      rw [hlabel.1]
      exact decide_eq_true hne
    simp only [Order.after, if_neg hafter, hordered, if_true, hlabel.2, Option.map_some,
      Bool.not_false, Bool.true_and]
  rcases Connection.sendAnswer_cases { handled.1 with
    remote := handled.1.remote.asked false } handled.2.len with ⟨hn, heq⟩ | ⟨hn, l, heq, hbusy, hlen, hshort⟩ | ⟨hcancel, hremote'⟩
  · rw [heq] at hx ⊢
    constructor
    · by_cases hne : handled.1.server.resetReq = 0
      · exact follows_clear (by exact hne) (by exact hflight) x hx
      · refine ⟨hflight, fun hz => absurd hz hne, fun _ => ⟨_, hnew hne (by rw [hx]; exact hne), rfl,
          nofun, fun _ => ⟨brief_idle hidle, ?_⟩⟩⟩
        simp [hn, hidle]
    · intro hd
      have hdue : handled.1.server.resetReq ≠ 0 ∧ handled.1.link.busy = false ∧
          handled.1.remote.inflight = false := by
        by_contra hno
        exact hd (if_neg hno)
      exact ⟨hflight.symm.trans hdue.2.2, decide_eq_true hdue.1, by rw [hn]⟩
  · rw [heq] at hx ⊢
    constructor
    · by_cases hne : handled.1.server.resetReq = 0
      · exact follows_clear (by exact hne) (by exact hflight) x hx
      · have hle := horders.resolve_left hne
        refine ⟨hflight, fun hz => absurd hz hne, fun _ => ⟨_, hnew hne (by rw [hx]; exact hne), rfl,
          nofun, fun _ => ⟨⟨.inr (hshort hle), fun _ => by rw [hlen]; exact hle⟩, ?_⟩⟩⟩
        simp [Nat.ne_of_gt hn, hbusy]
    · intro hd
      refine absurd ?_ hd
      have hno : ¬(l.busy = false) := by
        simp [Link.busy, hbusy]
      exact if_neg fun hx => hno hx.2.1
  · refine ⟨follows_clear hcancel ?_ x hx, fun hd => absurd (if_neg fun hx => hx.1 hcancel) hd⟩
    rw [hremote']
    exact hflight

end Steps

theorem applyAnsweredReset_cases (node : Node ε) (c : Connection ε) :
    (c.applyAnsweredReset node = (c, false)) ∨
      (c.resetDue ≠ 0 ∧ (c.applyAnsweredReset node).2 = true ∧
        (c.applyAnsweredReset node).1.server.resetReq = 0 ∧
        (c.applyAnsweredReset node).1.remote = c.remote) := by
  simp only [Connection.applyAnsweredReset]
  split
  · rename_i hdue
    exact .inr ⟨hdue.2, rfl, rfl, rfl⟩
  · exact .inl rfl

/-- After a call: the connection agrees with the observer, and the call kept to the reset's rules. -/
structure Agrees (node : Node ε) (hist : List (Trace.Entry (Connection ε) Event Log))
    (c : Connection ε) (e : Event) : Prop where
  follows : Follows (step node c e).1 (Order.after (orderOf hist) (Trace.entry (step node) c e))
    (e.way (onItsWay hist))
  performed : (step node c e).2.performed = true → onItsWay hist = false ∧
    ((∃ o ∈ orderOf hist, o.left = true) ∨
      (step node c e).2.ordered = true ∧ (step node c e).2.served = some (false, 0))
  cancelled : c.server.resetReq ≠ 0 → (step node c e).2.performed = false →
    ((step node c e).1.server.resetReq = 0 ↔
      ∃ o ∈ orderOf hist, Lost o (Trace.entry (step node) c e))
  waits : c.server.resetReq ≠ 0 → (step node c e).2.served = none

theorem Agrees.keeps {hist : List (Trace.Entry (Connection ε) Event Log)} {e : Event}
    (h : Agrees node hist c e) : KeepsReset hist (Trace.entry (step node) c e) where
  due := by
    rw [orderOf_snoc, onItsWay_snoc]
    exact h.follows.due
  performed := h.performed
  cancelled := h.cancelled
  waits := h.waits

section Calls
variable {hist : List (Trace.Entry (Connection ε) Event Log)} {e : Event}

/-- A call that serves nothing, and moves no answer. -/
theorem agrees_kept (h : Follows c (orderOf hist) (onItsWay hist))
    (hreq : (step node c e).1.server.resetReq = c.server.resetReq)
    (hremote : (step node c e).1.remote = c.remote)
    (hlink : Brief c.link →
      Brief (step node c e).1.link ∧ (step node c e).1.link.tx = c.link.tx)
    (hlabel : (step node c e).2 = {}) (hway : ∀ way, e.way way = way)
    (hack : e.acknowledges = false) (hdrop : e ≠ .remoteDropped) : Agrees node hist c e where
  follows := by
    rw [hway]
    exact follows_kept h hreq hremote hlink _ rfl (by simp [hlabel]) hack (by simp [hlabel])
  performed hp := by
    rw [hlabel] at hp
    cases hp
  cancelled hne _ := by
    rw [hreq]
    constructor
    · intro hzero
      exact absurd hzero hne
    · rintro ⟨p, -, -, hlost⟩
      simp only [Trace.entry_event, Trace.entry_label, hlabel] at hlost
      split at hlost
      · exact absurd hlost hdrop
      · cases hlost.1
  waits _ := by rw [hlabel]

/-- A call that serves nothing, and performs the reset. -/
theorem agrees_performed (hdone : (∃ p ∈ orderOf hist, p.left = true) ∧ onItsWay hist = false)
    (hreq : (step node c e).1.server.resetReq = 0)
    (hflight : (step node c e).1.remote.inflight = e.way (onItsWay hist))
    (hlabel : (step node c e).2 = { performed := true }) : Agrees node hist c e where
  follows := follows_clear hreq hflight _ rfl
  performed _ := ⟨hdone.2, .inl hdone.1⟩
  cancelled _ hp := by
    rw [hlabel] at hp
    cases hp
  waits _ := by rw [hlabel]

/-- A request of the bus is served while no reset is pending. -/
theorem agrees_served (hcalm : c.server.resetReq = 0)
    (hfollows : Follows (step node c e).1 (Order.after (orderOf hist) (Trace.entry (step node) c e))
      (e.way (onItsWay hist)))
    (hperformed : (step node c e).2.performed = true → onItsWay hist = false ∧
      (step node c e).2.ordered = true ∧ (step node c e).2.served = some (false, 0)) :
    Agrees node hist c e where
  follows := hfollows
  performed hp := ⟨(hperformed hp).1, .inr (hperformed hp).2⟩
  cancelled hne := absurd hcalm hne
  waits hne := absurd hcalm hne

/-- The top of a pass. -/
theorem agrees_housekeep (h : Follows c (orderOf hist) (onItsWay hist)) (now : UInt64) :
    Agrees node hist c (.housekeep now) := by
  have hticked : Follows { c with link := c.link.tick now } (orderOf hist) (onItsWay hist) := by
    refine ⟨h.flight, h.clear, fun hne => ?_⟩
    obtain ⟨p, ho, hasked, hnet, hbus⟩ := h.pending hne
    refine ⟨p, ho, hasked, hnet, fun hp => ?_⟩
    obtain ⟨hbrief, hleft⟩ := hbus hp
    obtain ⟨hbrief', htx⟩ := hbrief.tick now
    refine ⟨hbrief', ?_⟩
    show p.left = true ↔ (c.link.tick now).tx = .idle
    rw [htx]
    exact hleft
  have hheld : ∀ c' : Connection ε, (if inFlight c'.link ∨ c'.remote.inflight then
      c'.server.holdS3 now.toNat else c'.server).resetReq = c'.server.resetReq := by
    intro c'
    split <;> rfl
  rcases applyAnsweredReset_cases node { c with link := c.link.tick now } with
    heq | ⟨hdue, hyes, hzero, hremote⟩
  · refine agrees_kept h ?_ ?_ (fun hbrief => ?_) ?_ (fun _ => rfl) rfl nofun
    · simp only [step, Connection.housekeep, heq]
      exact (Server.resetReq_tick _ _).trans (hheld { c with link := c.link.tick now })
    · simp only [step, Connection.housekeep, heq]
    · simp only [step, Connection.housekeep, heq]
      exact hbrief.tick now
    · simp only [step, Connection.housekeep, heq]
  · refine agrees_performed (hticked.due hdue) ?_ ?_ ?_
    · simp only [step, Connection.housekeep]
      exact (Server.resetReq_tick _ _).trans ((hheld _).trans hzero)
    · simp only [step, Connection.housekeep]
      rw [hremote]
      exact h.flight
    · simp only [step, Connection.housekeep, hyes]

/-- A functional request. -/
theorem agrees_functional (h : Follows c (orderOf hist) (onItsWay hist)) (f : Frame)
    (hstep : step node c e = c.functional node f) (hway : ∀ way, e.way way = way)
    (hack : e.acknowledges = false) (hdrop : e ≠ .remoteDropped) : Agrees node hist c e := by
  have hdropped (heq : step node c e = (c, {})) : Agrees node hist c e := by
    refine agrees_kept h ?_ ?_ (fun hbrief => ?_) ?_ hway hack hdrop
    all_goals simp only [heq]
    exact ⟨hbrief, trivial⟩
  simp only [Connection.functional] at hstep
  split at hstep
  · exact hdropped hstep
  split at hstep
  · exact hdropped hstep
  rename_i hserves
  have hidle : c.link.tx = .idle := by
    have hquiet : c.link.idle = true := by
      by_contra hno
      exact hserves (.inr (.inr (.inr (.inl (by simpa using hno)))))
    simp only [Link.idle] at hquiet
    grind
  have hcalm : c.server.resetReq = 0 := by
    by_contra hno
    exact hserves (.inr (.inr (.inr (.inr hno))))
  generalize (f.data.drop 1).take (f.data.getD 0 0 &&& 0x0F).toNat = req at hstep
  have hserved := follows_serveBus h hcalm hidle true req
    ⟨c, e, (c.serveBus node true req).2, (c.serveBus node true req).1⟩ rfl ⟨rfl, rfl⟩
  rcases applyAnsweredReset_cases node (c.serveBus node true req).1 with
    heq | ⟨hdue, hyes, hzero, hremote⟩
  · rw [heq] at hstep
    refine agrees_served hcalm ?_ ?_
    · rw [hway, hstep]
      exact (follows_serveBus h hcalm hidle true req _ (by simp [hstep]) (by simp [hstep])).1
    · rw [hstep]
      nofun
  · refine agrees_served hcalm ?_ ?_
    · rw [hway]
      refine follows_clear ?_ ?_ _ rfl
      · rw [hstep]
        exact hzero
      · rw [hstep]
        show ((c.serveBus node true req).1.applyAnsweredReset node).1.remote.inflight = _
        rw [hremote]
        exact hserved.1.flight
    · rw [hstep]
      intro _
      exact hserved.2 hdue

/-- A received frame. -/
theorem agrees_frame (h : Follows c (orderOf hist) (onItsWay hist)) (now : UInt64) (f : Frame) :
    Agrees node hist c (.frame now f) := by
  have hkept (l : Link) (hl : Brief c.link → Brief l ∧ l.tx = c.link.tx)
      (heq : step node c (.frame now f) = ({ c with link := l }, {})) :
      Agrees node hist c (.frame now f) := by
    refine agrees_kept h ?_ ?_ (fun hbrief => ?_) ?_ (fun _ => rfl) rfl nofun
    all_goals simp only [heq]
    exact hl hbrief
  have hsame : Brief c.link → Brief c.link ∧ c.link.tx = c.link.tx := fun hbrief => ⟨hbrief, rfl⟩
  by_cases hext : f.ext = true
  · exact hkept c.link hsame (by simp only [step, Connection.onFrame, if_pos hext])
  by_cases hrx : f.id = node.rxId
  · refine hkept (takeFrame c.link now f).2 (fun hbrief => hbrief.takeFrame now f) ?_
    simp only [step, Connection.onFrame, if_neg hext, if_pos hrx]
  by_cases hfun : node.functionalId ≠ 0 ∧ f.id = node.functionalId
  · refine agrees_functional h f ?_ (fun _ => rfl) rfl nofun
    simp only [step, Connection.onFrame, if_neg hext, if_neg hrx, if_pos hfun]
  · exact hkept c.link hsame
      (by simp only [step, Connection.onFrame, if_neg hext, if_neg hrx, if_neg hfun])

/-- The request that the link reassembled. -/
theorem agrees_serve (h : Follows c (orderOf hist) (onItsWay hist)) :
    Agrees node hist c .serve := by
  have htake : c.link.take.2.tx = c.link.tx ∧ c.link.take.2.txLen = c.link.txLen := by
    simp only [Link.take]
    grind
  have hbrief (hb : Brief c.link) : Brief c.link.take.2 ∧ c.link.take.2.tx = c.link.tx := by
    refine ⟨⟨by rw [htake.1]; exact hb.tx, fun hx => ?_⟩, htake.1⟩
    rw [htake.2]
    exact hb.short (htake.1 ▸ hx)
  have hkept (heq : step node c .serve = ({ c with link := c.link.take.2 }, {})) :
      Agrees node hist c .serve := by
    refine agrees_kept h ?_ ?_ (fun hb => ?_) ?_ (fun _ => rfl) rfl fun h => (by cases h)
    all_goals simp only [heq]
    exact hbrief hb
  by_cases hblocked : c.link.take.2.busy = true ∨ c.server.resetReq ≠ 0
  · exact hkept (by simp [step, Connection.serve, takeRequest, hblocked])
  cases hreq : c.link.take.1 with
  | none => exact hkept (by simp [step, Connection.serve, takeRequest, hreq])
  | some req =>
    have hcalm : c.server.resetReq = 0 := by
      by_contra hno
      exact hblocked (.inr hno)
    by_cases hlen : req.length > 0
    · have hidle : c.link.take.2.tx = .idle := by
        have hfree : c.link.take.2.busy = false := by
          by_contra hno
          exact hblocked (.inl (by simpa using hno))
        simpa [Link.busy] using hfree
      have htaken : Follows { c with link := c.link.take.2 } (orderOf hist) (onItsWay hist) :=
        ⟨h.flight, h.clear, fun hne => absurd hcalm hne⟩
      have hstep : step node c .serve =
          ({ c with link := c.link.take.2 } : Connection ε).serveBus node false req := by
        have htakes : takeRequest c.link (decide (c.server.resetReq ≠ 0)) =
            (some req, c.link.take.2) := by
          simp only [takeRequest, decide_eq_true_eq]
          rw [if_neg hblocked, hreq]
        simp only [step, Connection.serve, htakes]
        exact if_pos hlen
      refine agrees_served hcalm ?_ ?_
      · rw [hstep]
        exact (follows_serveBus htaken hcalm hidle false req _ (by simp [hstep])
          (by simp [hstep])).1
      · rw [hstep]
        intro h
        cases h
    · exact hkept (by simp [step, Connection.serve, takeRequest, hblocked, hreq, hlen])

/-- The order that a call leaves, when it serves nothing. -/
theorem after_pending {p : Order} {x : Trace.Entry (Connection ε) Event Log}
    (hreq : x.after.server.resetReq ≠ 0) (hserved : x.label.ordered = false) :
    Order.after (some p) x = some { p with
      left := p.left || if p.remote then x.event.acknowledges else x.label.sent.any isSingle } := by
  simp only [Order.after, if_neg hreq, hserved, Bool.false_eq_true, if_false, Option.map_some]

/-- Sending, with no frame refused behind the answer of a reset that the bus asked for. -/
theorem agrees_pump (h : Follows c (orderOf hist) (onItsWay hist)) (now : UInt64)
    (channel : List Bool) (hspares : Spares (Trace.entry (step node) c (.pump now channel))) :
    Agrees node hist c (.pump now channel) := by
  have hstep : step node c (.pump now channel) = c.pump node now channel := rfl
  generalize hpump : pumpLink c.link node.txId now channel = pumped
  have hlabel : (step node c (.pump now channel)).2 =
      { sent := pumped.2.2, refused := !pumped.1 } := by
    simp only [hstep, Connection.pump, hpump]
  have hafter : (step node c (.pump now channel)).1 =
      if pumped.1 then { c with link := pumped.2.1 }
      else ({ c with link := pumped.2.1 } : Connection ε).answerLost := by
    simp only [hstep, Connection.pump, hpump]
  -- the reset is kept, unless a frame is refused and the bus asked for it
  have hkept (hno : pumped.1 = true ∨ c.remote.reset = true) :
      (step node c (.pump now channel)).1 = { c with link := pumped.2.1 } := by
    rw [hafter]
    split
    · rfl
    · simp only [Connection.answerLost, if_pos (hno.resolve_left ‹_›)]
  have hordered : (step node c (.pump now channel)).2.ordered = false := by rw [hlabel]
  by_cases hzero : c.server.resetReq = 0
  · refine ⟨follows_clear ?_ ?_ _ rfl, by rw [hlabel]; nofun, fun hne => absurd hzero hne,
      fun _ => by rw [hlabel]⟩
    all_goals rw [hafter]
    · split
      · exact hzero
      · simp only [Connection.answerLost]
        split
        · exact hzero
        · exact (Connection.cancelReset_spec _).1
    · split
      · exact h.flight
      · simp only [Connection.answerLost]
        split
        · exact h.flight
        · rw [(Connection.cancelReset_spec _).2.2]
          exact h.flight
  obtain ⟨p, ho, hasked, hnet, hbus⟩ := h.pending hzero
  -- the answer that is kept has left as far as the frames sent say
  have hstays (hno : pumped.1 = true ∨ c.remote.reset = true)
      (hbrief : p.remote = false → Brief pumped.2.1 ∧
        ((p.left || pumped.2.2.any isSingle) = true ↔ pumped.2.1.tx = .idle)) :
      Agrees node hist c (.pump now channel) := by
    have hkeeps := hkept hno
    refine ⟨?_, by rw [hlabel]; nofun, fun _ _ => ?_, fun _ => by rw [hlabel]⟩
    · rw [ho, after_pending (by simpa [hkeeps] using hzero) hordered, hkeeps]
      refine ⟨h.flight, fun hz => absurd hz hzero, fun _ => ⟨_, rfl, hasked, fun hp => ?_,
        fun hp => ?_⟩⟩
      · have hp' : p.remote = true := hp
        simp only [Trace.entry_event, Event.acknowledges, hp', if_true, Bool.or_false]
        exact hnet hp'
      · have hp' : p.remote = false := hp
        simp only [Trace.entry_label, hlabel, hp', Bool.false_eq_true, if_false]
        exact hbrief hp'
    · rw [hkeeps]
      constructor
      · intro hz
        exact absurd hz hzero
      · rintro ⟨q, hq, -, hlost⟩
        rw [ho] at hq
        cases hq
        rw [← hasked] at hlost
        cases hr : c.remote.reset with
        | true => simp [hr] at hlost
        | false =>
          rw [hr] at hno
          simp [hr, hlabel, hno.resolve_right] at hlost
  cases hp : p.remote with
  | true => exact hstays (.inr (hasked.trans hp)) (by rw [hp]; nofun)
  | false =>
    obtain ⟨hbrief, hleft⟩ := hbus hp
    obtain ⟨hbrief', hidle, hsf⟩ := hbrief.pump node.txId now channel
    rw [hpump] at hbrief' hidle hsf
    by_cases htx : c.link.tx = .idle
    · obtain ⟨hstill, hnone⟩ := hidle htx
      have htaken : pumped.1 = true := by
        by_contra hno
        refine hspares ⟨hzero, hasked.trans hp, by simp [Link.busy, htx], ?_⟩
        rw [Trace.entry_label, hlabel]
        simpa using hno
      refine hstays (.inl htaken) fun _ => ⟨hbrief', ?_⟩
      simp [hleft.mpr htx, hstill]
    · have hwaits : p.left = false := by
        by_contra hno
        exact htx (hleft.mp (by simpa using hno))
      rcases hsf (hbrief.tx.resolve_left htx) with ⟨htaken, hsent, hone⟩ | ⟨hkeep, hnone⟩
      · refine hstays (.inl htaken) fun _ => ⟨hbrief', ?_⟩
        simp [hone, hsent]
      · by_cases htaken : pumped.1 = true
        · refine hstays (.inl htaken) fun _ => ⟨hbrief', ?_⟩
          simp [hwaits, hnone, hkeep htaken]
        · have hreset : c.remote.reset = false := hasked.trans hp
          have hcancelled : (step node c (.pump now channel)).1 =
              ({ c with link := pumped.2.1 } : Connection ε).cancelReset := by
            rw [hafter, if_neg htaken]
            simp only [Connection.answerLost, hreset, Bool.false_eq_true, if_false]
          obtain ⟨hgone, -, hsame⟩ :=
            Connection.cancelReset_spec { c with link := pumped.2.1 }
          refine ⟨follows_clear ?_ ?_ _ rfl, by rw [hlabel]; nofun, fun _ _ => ?_,
            fun _ => by rw [hlabel]⟩
          · rw [hcancelled]
            exact hgone
          · rw [hcancelled, hsame]
            exact h.flight
          · rw [hcancelled]
            refine iff_of_true hgone ⟨p, ho, hwaits, ?_⟩
            simp [hp, hlabel, htaken, hnone]

/-- A request of the network. -/
theorem agrees_remoteRequest (h : Follows c (orderOf hist) (onItsWay hist)) (req : List UInt8)
    (functional : Bool) : Agrees node hist c (.remoteRequest req functional) := by
  by_cases hserves : req.length < 1 ∨ c.server.resetReq ≠ 0
  · have hstep : step node c (.remoteRequest req functional) =
        ({ c with remote := c.remote.begin }, {}) := if_pos hserves
    by_cases hzero : c.server.resetReq = 0
    · refine ⟨follows_clear ?_ ?_ _ rfl, ?_, fun hne => absurd hzero hne,
        fun hne => absurd hzero hne⟩
      all_goals rw [hstep]
      · exact hzero
      · rfl
      · nofun
    · obtain ⟨p, ho, hasked, hnet, hbus⟩ := h.pending hzero
      refine ⟨?_, ?_, fun _ _ => ?_, fun _ => by rw [hstep]⟩
      · rw [ho, after_pending (by simpa [hstep] using hzero) (by simp [hstep]), hstep]
        refine ⟨rfl, fun hz => absurd hz hzero, fun _ => ⟨_, rfl, hasked, fun hp => ?_, fun hp => ?_⟩⟩
        · have hp' : p.remote = true := hp
          simp only [Trace.entry_event, Event.acknowledges, hp', if_true, Bool.or_false]
          exact ⟨(hnet hp').1, fun _ => rfl⟩
        · have hp' : p.remote = false := hp
          simp only [Trace.entry_label, hstep, List.any_nil, hp', Bool.false_eq_true, if_false,
            Bool.or_false]
          exact hbus hp'
      · rw [hstep]
        nofun
      · constructor
        · intro hz
          rw [hstep] at hz
          exact absurd hz hzero
        · rintro ⟨q, -, -, hlost⟩
          simp [hstep] at hlost
  · have hcalm : c.server.resetReq = 0 := by
      by_contra hno
      exact hserves (.inr hno)
    have hstep : step node c (.remoteRequest req functional) =
        c.serveRemote node req functional := rfl
    simp only [Connection.serveRemote, if_neg hserves] at hstep
    obtain ⟨-, hremote, -⟩ := (({ c with remote := c.remote.begin } : Connection ε).refreshDids
      node).handleFor_spec node true functional req
    generalize (({ c with remote := c.remote.begin } : Connection ε).refreshDids node).handleFor
      node true functional req = handled at *
    refine ⟨?_, ?_, fun hne => absurd hcalm hne, fun hne => absurd hcalm hne⟩
    · by_cases hzero : handled.1.server.resetReq = 0
      · refine follows_clear ?_ ?_ _ rfl
        all_goals rw [hstep]
        · exact hzero
        · simp only [hzero, ne_eq, not_true_eq_false, decide_false, Bool.false_eq_true, if_false]
          rw [hremote]
          rfl
      · have horder : Order.after (orderOf hist)
            (Trace.entry (step node) c (.remoteRequest req functional)) = some ⟨true, false⟩ := by
          simp [Order.after, hstep, hzero]
        rw [horder, hstep]
        refine ⟨?_, fun hz => absurd hz hzero, fun _ => ⟨_, rfl, ?_, fun _ => ⟨?_, fun _ => rfl⟩,
          nofun⟩⟩
        all_goals simp only [ne_eq, hzero, not_false_eq_true, decide_true, if_true, hremote]
        all_goals rfl
    · rw [hstep]
      nofun

/-- The network acknowledged its answer. -/
theorem agrees_remoteSent (h : Follows c (orderOf hist) (onItsWay hist)) :
    Agrees node hist c .remoteSent := by
  have hstep : step node c .remoteSent = (c.remoteSent, {}) := rfl
  by_cases hzero : c.server.resetReq = 0
  · refine ⟨follows_clear ?_ rfl _ rfl, nofun, fun hne => absurd hzero hne, fun _ => rfl⟩
    exact hzero
  obtain ⟨p, ho, hasked, hnet, hbus⟩ := h.pending hzero
  refine ⟨?_, nofun, fun _ _ => ?_, fun _ => rfl⟩
  · rw [ho, after_pending (by exact hzero) rfl]
    refine ⟨rfl, fun hz => absurd hz hzero, fun _ => ⟨_, rfl, hasked, fun hp => ?_, fun hp => ?_⟩⟩
    · have hp' : p.remote = true := hp
      have hreset : c.remote.reset = true := hasked.trans hp'
      simp only [hp', if_true]
      refine ⟨?_, fun hleft => ?_⟩
      · simp [hstep, Connection.remoteSent, RemoteReset.sent, hreset, Event.acknowledges]
      · simp [Event.acknowledges] at hleft
    · have hp' : p.remote = false := hp
      simp only [hp', Bool.false_eq_true, if_false, Trace.entry_label, hstep, List.any_nil,
        Bool.or_false]
      exact hbus hp'
  · constructor
    · intro hz
      exact absurd hz hzero
    · rintro ⟨q, -, -, hlost⟩
      simp [hstep] at hlost

/-- The network is gone. -/
theorem agrees_remoteDropped (h : Follows c (orderOf hist) (onItsWay hist)) :
    Agrees node hist c .remoteDropped := by
  have hstep : step node c .remoteDropped = (c.remoteDropped node, {}) := rfl
  obtain ⟨hlink, hremote, hreq⟩ := c.remoteDropped_spec node
  by_cases hzero : c.server.resetReq = 0
  · refine ⟨follows_clear ?_ ?_ _ rfl, nofun, fun hne => absurd hzero hne, fun _ => rfl⟩
    · rw [hstep, hreq, hzero, ite_self]
    · rw [hstep, hremote]
      rfl
  obtain ⟨p, ho, hasked, hnet, hbus⟩ := h.pending hzero
  refine ⟨?_, nofun, fun _ _ => ?_, fun _ => rfl⟩
  · by_cases hlost : c.remote.dropped.1 = true
    · refine follows_clear ?_ ?_ _ rfl
      · rw [hstep, hreq, if_pos hlost]
      · rw [hstep, hremote]
        rfl
    · rw [if_neg hlost] at hreq
      rw [ho, after_pending (by simpa [hstep, hreq] using hzero) rfl, hstep]
      refine ⟨by rw [hremote]; rfl, fun hz => absurd (hreq.symm.trans hz) hzero, fun _ =>
        ⟨_, rfl, by rw [hremote]; exact hasked, fun hp => ?_, fun hp => ?_⟩⟩
      · have hp' : p.remote = true := hp
        have hleft : p.left = true := by
          rw [← (hnet hp').1]
          simpa [RemoteReset.dropped, hasked, hp'] using hlost
        rw [hremote]
        simp only [hleft, Bool.true_or]
        exact ⟨(hnet hp').1.trans hleft, nofun⟩
      · have hp' : p.remote = false := hp
        rw [hlink]
        simp only [hp', Bool.false_eq_true, if_false, Trace.entry_label, hstep, List.any_nil,
          Bool.or_false]
        exact hbus hp'
  · rw [hstep, hreq, ho]
    cases hp : p.remote with
    | true =>
      have hacked := (hnet hp).1
      simp [RemoteReset.dropped, hasked, hp, hacked, Lost, hzero]
    | false => simp [RemoteReset.dropped, hasked, hp, Lost, hzero, hstep]

end Calls

/-- Every call. -/
theorem agrees_step {hist : List (Trace.Entry (Connection ε) Event Log)}
    (h : Follows c (orderOf hist) (onItsWay hist)) (e : Event)
    (hspares : Spares (Trace.entry (step node) c e)) : Agrees node hist c e := by
  cases e with
  | housekeep now => exact agrees_housekeep h now
  | frame now f => exact agrees_frame h now f
  | serve => exact agrees_serve h
  | pump now channel => exact agrees_pump h now channel hspares
  | remoteRequest req functional => exact agrees_remoteRequest h req functional
  | remoteSent => exact agrees_remoteSent h
  | remoteDropped => exact agrees_remoteDropped h

/-- In every run of a connection whose channel refuses no frame behind the answer of a pending reset
of the bus, whatever the node serves: a reset is due, and performed, only after its answer and with
no other on its way, it is cancelled exactly when that answer is lost, and no request is served
before. -/
theorem reset_waits (node : Node ε) (ctx : ε) (dids : List Did) (bs stmin : UInt8)
    (es : List Event)
    (hspares : ∀ x ∈ Trace.history (step node) (.init node ctx dids bs stmin) es, Spares x) :
    Trace.Along KeepsReset (Trace.history (step node) (.init node ctx dids bs stmin) es) := by
  refine (Trace.run_along (I := fun c hist => Follows c (orderOf hist) (onItsWay hist))
    (C := fun _ x => Spares x) ⟨rfl, fun _ => rfl, fun hne => absurd rfl hne⟩
    (fun es e h he => ?_) es (Trace.along_of_forall fun x hx _ => hspares x hx)).2
  have hagrees := agrees_step h e he
  rw [orderOf_snoc, onItsWay_snoc]
  exact ⟨hagrees.follows, hagrees.keeps⟩

/-- A node that serves the reset, on the identifiers of the bench. -/
def bench : Node Unit where
  hooks := {}
  config := { servesReset := true }
  refresh := fun _ dids => dids
  rxId := 0x7E0
  txId := 0x7E8
  functionalId := 0x7DF
  handoffRemote := false
  ownerResets := false

def benchFrame (data : List UInt8) : Frame := { id := 0x7E0, ext := false, data := data }

/-- A reset, while the network still waits for an answer. -/
def orderedReset : List Event :=
  [.remoteRequest [0x3E, 0x00] false, .frame 1 (benchFrame [0x02, 0x11, 0x01]), .serve,
    .pump 2 [true], .housekeep 3]

/-- It is performed once the network has acknowledged. -/
theorem reset_waits_bench :
    (Trace.history (step bench) (.init bench () [] 0 0)
        (orderedReset ++ [.remoteSent, .housekeep 4])).map (·.label.performed) =
      [false, false, false, false, false, false, true] ∧
    Trace.Along KeepsReset (Trace.history (step bench) (.init bench () [] 0 0)
      (orderedReset ++ [.remoteSent, .housekeep 4])) :=
  ⟨by decide +kernel, reset_waits bench () [] 0 0 _ (by decide +kernel)⟩

/-- The answer has left, and the channel refuses the flow control of the next request: the reset is
cancelled although its answer was not lost. -/
theorem refused_flow_cancels :
    ¬Trace.Along KeepsReset (Trace.history (step bench) (.init bench () [] 0 0)
      (orderedReset ++ [.frame 4 (benchFrame [0x10, 0x14, 0x22, 0xF1, 0x90, 0xF1, 0x8C, 0xF1])] ++
        [.pump 5 [false]])) := by
  intro h
  rw [Trace.history_snoc, Trace.along_snoc] at h
  obtain ⟨o, ho, hleft, -⟩ :=
    (h.2.cancelled (by decide +kernel) (by decide +kernel)).mp (by decide +kernel)
  have horder : orderOf (Trace.history (step bench) (.init bench () [] 0 0) (orderedReset ++
      [.frame 4 (benchFrame [0x10, 0x14, 0x22, 0xF1, 0x90, 0xF1, 0x8C, 0xF1])])) =
      some ⟨false, true⟩ := by decide +kernel
  rw [horder] at ho
  cases ho
  cases hleft

end BloblyEmb.Diag
