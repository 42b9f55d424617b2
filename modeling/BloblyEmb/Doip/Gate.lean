import BloblyEmb.Doip.Bounds
import BloblyEmb.Doip.Net
import BloblyEmb.Lib.Trace

/-!
# The activation gate

The messages served on a connection say which tester is registered: the source of the first routing
activation that the policy allows. The server keeps just that tester, and a message calls the
diagnostic server or the router only when it is a diagnostic message from the tester that the
messages before it registered. With the end of the connection the registration ends.
-/
namespace BloblyEmb.Doip
open Buffer

namespace Served

/-- The source address that a message carries. -/
def source (m : Served) : UInt16 := be16 m.payload 0

/-- The request in a diagnostic message. -/
def request (m : Served) : List UInt8 := m.payload.drop 4

end Served

/-- The request that a call hands over. -/
def Call.request : Call → List UInt8
  | .answer req _ => req
  | .uds req _ => req
  | .route _ req _ _ => req

namespace Server
variable {γ ε : Type} {w : Serve γ} {h : Uds.Application.Hooks ε} {c : Uds.Application.Config}

/-- A routing activation that passes the checks of the address and of the activation type. -/
def allows (s : Server γ ε) (m : Served) : Bool :=
  m.ptype = ptRouteReq && (m.payload.length = 7 || m.payload.length = 11) &&
    s.testerAllowed m.source && s.typeServed (m.payload.getD 2 0)

/-- The tester that the messages of a connection register. -/
def registers (s : Server γ ε) (log : List Served) : Option UInt16 :=
  (log.find? s.allows).map Served.source

/-- The tester that the server keeps. -/
def registered (s : Server γ ε) : Option UInt16 := if s.activated then some s.testerAddr else none

/-- A message that calls anything is a diagnostic message from the registered tester, and hands
over its request. -/
def Gate (s : Server γ ε) (before : List Served) (m : Served) : Prop :=
  m.calls ≠ [] → m.ptype = ptDiag ∧ 5 ≤ m.payload.length ∧
    s.registers before = some m.source ∧ ∀ x ∈ m.calls, x.request = m.request

/-- The server follows the messages of the connection, under the policy of `p`. -/
structure Tracks (p s : Server γ ε) (log : List Served) : Prop where
  testers : s.testers = p.testers
  actTypes : s.actTypes = p.actTypes
  tester : s.registered = p.registers log
  gated : Trace.Along p.Gate log

/-! ## One message -/

theorem registers_snoc (p : Server γ ε) (log : List Served) (m : Served) :
    p.registers (log ++ [m]) =
      (p.registers log).or (if p.allows m then some m.source else none) := by
  simp only [registers, List.find?_append]
  cases log.find? p.allows with
  | some x => rfl
  | none =>
    simp only [Option.none_or, Option.map_none, List.find?_cons, List.find?_nil]
    cases p.allows m <;> rfl

theorem getD_payload (buf : List UInt8) {plen i : ℕ} (hi : i < plen) :
    ((buf.drop headerLen).take plen).getD i 0 = buf.getD (headerLen + i) 0 := by
  simp [List.getD_eq_getElem?_getD, hi]

theorem be16_payload (buf : List UInt8) {plen i : ℕ} (hi : i + 1 < plen) :
    be16 ((buf.drop headerLen).take plen) i = be16 buf (headerLen + i) := by
  simp only [be16]
  rw [getD_payload buf (Nat.lt_of_succ_lt hi), getD_payload buf hi, Nat.add_assoc]

theorem request_payload (buf : List UInt8) (plen : ℕ) :
    ((buf.drop headerLen).take plen).drop 4 = (buf.drop (headerLen + 4)).take (plen - 4) := by
  rw [List.drop_take, List.drop_drop]

/-- What a message does to the registration. -/
structure Registers (s s' : Server γ ε) (allowed : Bool) (sa : UInt16) : Prop where
  testers : s'.testers = s.testers
  actTypes : s'.actTypes = s.actTypes
  tester : s'.registered = s.registered.or (if allowed then some sa else none)

theorem registers_same {s s' : Server γ ε} {sa : UInt16} (ht : s'.testers = s.testers)
    (ha : s'.actTypes = s.actTypes) (hact : s'.activated = s.activated)
    (haddr : s'.testerAddr = s.testerAddr) : s.Registers s' false sa where
  testers := ht
  actTypes := ha
  tester := by
    simp only [registered, hact, haddr]
    cases s.activated <;> rfl

theorem registers_activation (s : Server γ ε) (r : Room) :
    s.Registers (s.activation r).1
      (s.testerAllowed (be16 s.buf headerLen) && s.typeServed (s.buf.getD (headerLen + 2) 0))
      (be16 s.buf headerLen) := by
  simp only [activation]
  generalize be16 s.buf headerLen = sa
  generalize s.buf.getD (headerLen + 2) 0 = atype
  cases hallowed : s.testerAllowed sa with
  | false =>
    have hcode : s.activationCode sa atype = raUnknownSource := by
      simp [activationCode, hallowed]
    rw [hcode, if_neg (by decide), Bool.false_and]
    exact registers_same rfl rfl rfl rfl
  | true =>
    cases htype : s.typeServed atype with
    | false =>
      have hcode : s.activationCode sa atype = raUnsupportedType := by
        simp [activationCode, hallowed, htype]
      rw [hcode, if_neg (by decide), Bool.and_false]
      exact registers_same rfl rfl rfl rfl
    | true =>
      by_cases hother : s.activated = true ∧ sa ≠ s.testerAddr
      · -- the tester that is registered stays
        have hcode : s.activationCode sa atype = raSourceDiffers := by
          simp [activationCode, hallowed, htype, hother.1, hother.2]
        rw [hcode, if_neg (by decide)]
        refine ⟨rfl, rfl, ?_⟩
        simp [registered, hother.1]
      · have hcode : s.activationCode sa atype = raOk := by
          simp only [activationCode, hallowed, htype]
          simp [hother]
        rw [hcode, if_pos rfl]
        refine ⟨rfl, rfl, ?_⟩
        simp only [registered]
        cases hact : s.activated with
        | false => rfl
        | true =>
          have heq : sa = s.testerAddr := Classical.not_not.mp fun hne => hother ⟨hact, hne⟩
          simp [heq]

theorem registers_ask (s : Server γ ε) (req : List UInt8) (functional : Bool) (sa : UInt16) :
    s.Registers (s.ask w h c req functional).1 false sa := by
  obtain ⟨ctx, u, hsame, -⟩ := ask_same (w := w) (h := h) (c := c) s req functional
  rw [hsame]
  exact registers_same rfl rfl rfl rfl

/-- A diagnostic message leaves the registration, and calls only for the registered tester. -/
theorem gate_diagnostic (s : Server γ ε) (plen : ℕ) (r : Room) :
    s.Registers (s.diagnostic w h c plen r).1 false (be16 s.buf headerLen) ∧
      ((s.diagnostic w h c plen r).2.2 ≠ [] →
        s.registered = some (be16 s.buf headerLen) ∧
          ∀ x ∈ (s.diagnostic w h c plen r).2.2, x.request = s.request plen) := by
  simp only [diagnostic]
  generalize (be16 s.buf (headerLen + 2) ==
    if s.functionalAddr ≠ 0 then s.functionalAddr else defaultFunctionalAddr) = functional
  by_cases hgate : ¬s.activated = true ∨ be16 s.buf headerLen ≠ s.testerAddr
  · simp only [if_pos hgate]
    exact ⟨registers_same rfl rfl rfl rfl, fun hc => absurd rfl hc⟩
  have hreg : s.registered = some (be16 s.buf headerLen) := by
    simp only [not_or, Classical.not_not] at hgate
    simp [registered, hgate.1, hgate.2]
  by_cases hroute : be16 s.buf (headerLen + 2) ≠ s.entityAddr ∧ ¬functional = true
  · simp only [if_neg hgate, if_pos hroute, route]
    split
    · rename_i idx hook _ _
      by_cases hcode : (hook s.ctx idx (s.request plen) s.conn (s.ticket + 1)).2 ≠ 0
      · simp only [if_pos hcode]
        exact ⟨registers_same rfl rfl rfl rfl, fun _ => ⟨hreg, by simp [Call.request]⟩⟩
      · simp only [if_neg hcode]
        exact ⟨registers_same rfl rfl rfl rfl, fun _ => ⟨hreg, by simp [Call.request]⟩⟩
    · exact ⟨registers_same rfl rfl rfl rfl, fun hc => absurd rfl hc⟩
  · simp only [if_neg hgate, if_neg hroute]
    have hkeep := registers_ask (w := w) (h := h) (c := c) s (s.request plen) functional
      (be16 s.buf headerLen)
    have hcalls : ∀ x ∈ (s.ask w h c (s.request plen) functional).2.2,
        x.request = s.request plen := by
      simp only [ask]
      cases w.answer with
      | some f => simp [Call.request]
      | none => simp [Call.request]
    generalize s.ask w h c (s.request plen) functional = asked at hkeep hcalls
    obtain ⟨s', a, calls⟩ := asked
    dsimp only at hkeep hcalls ⊢
    split
    · exact ⟨hkeep, fun _ => ⟨hreg, hcalls⟩⟩
    · split
      · exact ⟨hkeep, fun _ => ⟨hreg, hcalls⟩⟩
      · exact ⟨hkeep, fun _ => ⟨hreg, hcalls⟩⟩

theorem Registers.of_allows {s s' : Server γ ε} {sa : UInt16} {allowed : Bool}
    (hk : s.Registers s' allowed sa) {m : Served} (ha : allowed = s.allows m)
    (hsa : allowed = true → sa = m.source) : s.Registers s' (s.allows m) m.source where
  testers := hk.testers
  actTypes := hk.actTypes
  tester := by
    rw [hk.tester, ← ha]
    cases hx : allowed with
    | false => rfl
    | true => rw [hsa hx]

/-- What a message registers is what the policy allows, and it calls only behind the gate. -/
theorem gate_dispatch (s : Server γ ε) {ptype : UInt16} {plen : ℕ} (r : Room)
    (hhead : head s.buf = .whole ptype plen) {m : Served}
    (hm : m = ⟨ptype, (s.buf.drop headerLen).take plen,
      (s.dispatch w h c ptype plen r).2.2⟩) :
    s.Registers (s.dispatch w h c ptype plen r).1 (s.allows m) m.source ∧
      (m.calls ≠ [] → m.ptype = ptDiag ∧ 5 ≤ m.payload.length ∧ s.registered = some m.source ∧
        ∀ x ∈ m.calls, x.request = m.request) := by
  have hlen : m.payload.length = plen := by
    have := head_whole hhead
    rw [hm, List.length_take, List.length_drop]
    omega
  have htype : m.ptype = ptype := by rw [hm]
  have hpayload : m.payload = (s.buf.drop headerLen).take plen := by rw [hm]
  have hcalls : m.calls = (s.dispatch w h c ptype plen r).2.2 := by rw [hm]
  rw [hcalls, htype, hlen]
  clear hcalls hm
  have hno : ∀ {s' : Server γ ε}, s'.testers = s.testers → s'.actTypes = s.actTypes →
      s'.activated = s.activated → s'.testerAddr = s.testerAddr → s.allows m = false →
      s.Registers s' (s.allows m) m.source := by
    intro s' h₁ h₂ h₃ h₄ hallows
    rw [hallows]
    exact registers_same h₁ h₂ h₃ h₄
  simp only [dispatch]
  split
  · rename_i hroute
    split
    · rename_i hbad
      refine ⟨hno rfl rfl rfl rfl ?_, fun hc => absurd rfl hc⟩
      simp [allows, hlen, hbad.1, hbad.2]
    · rename_i hgood
      have hplen : plen = 7 ∨ plen = 11 := by omega
      refine ⟨(registers_activation s r).of_allows ?_ ?_, fun hc => ?_⟩
      · simp only [allows, htype, hroute, hlen]
        simp only [Served.source, hpayload]
        rw [be16_payload s.buf (by omega), getD_payload s.buf (by omega)]
        rcases hplen with hplen | hplen <;> simp [hplen]
      · intro _
        simp only [Served.source, hpayload]
        rw [be16_payload s.buf (by omega), Nat.add_zero]
      · exfalso
        simp only [activation] at hc
        split at hc <;> exact hc rfl
  rename_i hroute
  have hallows : s.allows m = false := by simp [allows, htype, hroute]
  split
  · split <;> exact ⟨hno rfl rfl rfl rfl hallows, fun hc => absurd rfl hc⟩
  split
  · split <;> exact ⟨hno rfl rfl rfl rfl hallows, fun hc => absurd rfl hc⟩
  split
  · rename_i hdiag
    split
    · exact ⟨hno rfl rfl rfl rfl hallows, fun hc => absurd rfl hc⟩
    · rename_i hfive
      have hsource : be16 s.buf headerLen = m.source := by
        simp only [Served.source, hpayload]
        rw [be16_payload s.buf (by omega), Nat.add_zero]
      have hrequest : s.request plen = m.request := by
        simp only [Server.request, Served.request, hpayload]
        rw [request_payload]
      obtain ⟨hkeep, hgate⟩ := gate_diagnostic (w := w) (h := h) (c := c) s plen r
      rw [hsource] at hkeep hgate
      rw [hallows]
      refine ⟨hkeep, fun hc => ⟨hdiag, by omega, (hgate hc).1, ?_⟩⟩
      rw [← hrequest]
      exact (hgate hc).2
  · exact ⟨hno rfl rfl rfl rfl hallows, fun hc => absurd rfl hc⟩

/-! ## Feeds and passes -/

section Tracking
variable {p s : Server γ ε} {log : List Served}

theorem Tracks.of_same (hk : Tracks p s log) {s' : Server γ ε} (ht : s'.testers = s.testers)
    (ha : s'.actTypes = s.actTypes) (hact : s'.activated = s.activated)
    (haddr : s'.testerAddr = s.testerAddr) : Tracks p s' log where
  testers := ht.trans hk.testers
  actTypes := ha.trans hk.actTypes
  tester := by
    rw [← hk.tester]
    simp only [registered, hact, haddr]
  gated := hk.gated

/-- The policy is the same, so it allows the same messages. -/
theorem Tracks.allows (hk : Tracks p s log) (m : Served) : s.allows m = p.allows m := by
  simp only [Server.allows, testerAllowed, typeServed, hk.testers, hk.actTypes]

theorem Tracks.dispatch (hk : Tracks p s log) {ptype : UInt16} {plen : ℕ} (r : Room)
    (hhead : head s.buf = .whole ptype plen) (buf : List UInt8) :
    Tracks p { (s.dispatch w h c ptype plen r).1 with buf := buf }
      (log ++ [⟨ptype, (s.buf.drop headerLen).take plen,
        (s.dispatch w h c ptype plen r).2.2⟩]) := by
  obtain ⟨hreg, hgate⟩ := gate_dispatch (w := w) (h := h) (c := c) s r hhead rfl
  refine ⟨hreg.testers.trans hk.testers, hreg.actTypes.trans hk.actTypes, ?_, ?_⟩
  · rw [registers_snoc, ← hk.tester, ← hk.allows]
    exact hreg.tester
  · rw [Trace.along_snoc]
    refine ⟨hk.gated, fun hc => ?_⟩
    obtain ⟨htype, hfive, hsource, hrequest⟩ := hgate hc
    exact ⟨htype, hfive, by rw [← hk.tester]; exact hsource, hrequest⟩

theorem Tracks.serveAll (respMax fuel : ℕ) (r : Room) (hk : Tracks p s log) :
    Tracks p (s.serveAll w h c respMax fuel r).1
      (log ++ (s.serveAll w h c respMax fuel r).2.2) := by
  induction fuel generalizing s r log with
  | zero => simpa [Server.serveAll] using hk
  | succ fuel ih =>
    simp only [Server.serveAll]
    split
    · simpa using hk
    · rw [List.append_nil]
      exact hk.of_same rfl rfl rfl rfl
    · rename_i ptype plen hhead
      split
      · simpa using hk
      split
      · exact hk.dispatch r hhead []
      · rw [List.append_cons]
        exact ih _ (hk.dispatch r hhead _)

theorem Tracks.feed (data : List UInt8) (out : ℕ → UInt8) (respMax : ℕ) (hk : Tracks p s log) :
    Tracks p (s.feed w h c data out respMax).1
      (log ++ (s.feed w h c data out respMax).2.2) := by
  simp only [Server.feed]
  split
  · rw [List.append_nil]
    exact hk.of_same rfl rfl rfl rfl
  · exact Tracks.serveAll _ _ _ (hk.of_same rfl rfl rfl rfl)

/-- What a step leaves: the messages served are gated, and the server follows the connection, or a
new one when this one ended. -/
structure Leaves (p : Server γ ε) (log : List Served) (s' : Server γ ε) (done : Done) : Prop where
  gated : Trace.Along p.Gate (log ++ done.served)
  tracks : Tracks p s' (if done.ended then [] else log ++ done.served)

theorem Tracks.leaves (hk : Tracks p s log) (sent : List (List UInt8)) :
    Leaves p log s ⟨sent, [], false⟩ := by
  constructor <;> simp [hk, hk.gated]

/-- With the end of the connection no tester is registered. -/
theorem Tracks.ends (hk : Tracks p s log) : Tracks p s.endConnection [] where
  testers := hk.testers
  actTypes := hk.actTypes
  tester := rfl
  gated := .nil _

theorem Leaves.ends {done : Done} (hl : Leaves p log s done) {done' : Done}
    (hserved : done'.served = done.served) (hended : done'.ended = true) :
    Leaves p log s.endConnection done' := by
  refine ⟨hserved ▸ hl.gated, ?_⟩
  rw [if_pos hended]
  exact hl.tracks.ends

theorem Tracks.exchange (respMax fuel : ℕ) (sends : ℕ → Bool) (data : List UInt8)
    (out : ℕ → UInt8) (hk : Tracks p s log) :
    Leaves p log (s.exchange w h c respMax fuel sends data out).1
      (s.exchange w h c respMax fuel sends data out).2 := by
  induction fuel generalizing s log sends data out with
  | zero => exact hk.leaves []
  | succ fuel ih =>
    have hfeed := hk.feed (w := w) (h := h) (c := c) data out respMax
    have hstep (sent : List (List UInt8)) :
        Leaves p log (s.feed w h c data out respMax).1
          ⟨sent, (s.feed w h c data out respMax).2.2, false⟩ := ⟨hfeed.gated, hfeed⟩
    simp only [Server.exchange]
    split
    · exact hstep []
    split
    · exact (hstep []).ends rfl rfl
    · obtain ⟨hgated, htracks⟩ := ih (fun k => sends (k + 1)) []
        (s.feed w h c data out respMax).2.1.cells hfeed
      rw [List.append_assoc] at hgated htracks
      exact ⟨hgated, htracks⟩

theorem Tracks.pass (rx : Received) (sends : ℕ → Bool) (out : ℕ → UInt8) (respMax : ℕ)
    (hk : Tracks p s log) :
    Leaves p log (s.pass w h c rx sends out respMax).1
      (s.pass w h c rx sends out respMax).2 := by
  cases rx with
  | dropped => exact (hk.leaves []).ends rfl rfl
  | nothing => exact hk.leaves []
  | bytes data =>
    have hl := hk.exchange (w := w) (h := h) (c := c) respMax
      (s.buf.length + data.length + 2) sends data out
    simp only [Server.pass]
    split
    · exact hl.ends rfl rfl
    · exact hl

end Tracking
end Server

/-! ## Runs of an entity -/

/-- What happens to an entity: its network loop, and the time of the embedded server. -/
inductive Event where
  | pass (rx : Received) (sends : ℕ → Bool) (out : ℕ → UInt8) (respMax : ℕ)
  | push (resp : List UInt8) (sent : Bool)
  | routed (source : UInt16) (ticket : UInt32) (resp : List UInt8) (sent : Bool)
  /-- The answer to a routed request is given up on. -/
  | giveUp
  | tick (now : ℕ)

variable {γ ε : Type}

def step (w : Serve γ) (h : Uds.Application.Hooks ε) (c : Uds.Application.Config)
    (s : Server γ ε) : Event → Server γ ε × Done
  | .pass rx sends out respMax => s.pass w h c rx sends out respMax
  | .push resp sent => s.push resp sent
  | .routed source ticket resp sent => s.routed source ticket resp sent
  | .giveUp => ({ s with routeOpen := false }, ⟨[], [], false⟩)
  | .tick now => ({ s with uds := s.uds.tick h c now }, ⟨[], [], false⟩)

/-- The messages served on the connection there is now. -/
def connection (hist : List (Trace.Entry (Server γ ε) Event Done)) : List Served :=
  hist.foldl (fun log x => if x.label.ended then [] else log ++ x.label.served) []

theorem connection_snoc (hist : List (Trace.Entry (Server γ ε) Event Done))
    (x : Trace.Entry (Server γ ε) Event Done) :
    connection (hist ++ [x]) =
      if x.label.ended then [] else connection hist ++ x.label.served := by
  rw [connection, List.foldl_append]
  rfl

namespace Server
variable {w : Serve γ} {h : Uds.Application.Hooks ε} {c : Uds.Application.Config}

theorem Tracks.step {p s : Server γ ε} {log : List Served} (hk : Tracks p s log) (e : Event) :
    Leaves p log (Doip.step w h c s e).1 (Doip.step w h c s e).2 := by
  cases e with
  | pass rx sends out respMax => exact hk.pass rx sends out respMax
  | push resp sent =>
    simp only [Doip.step, push]
    split
    · exact hk.leaves []
    split
    · exact (hk.leaves []).ends rfl rfl
    · exact hk.leaves _
  | routed source ticket resp sent =>
    have hrouted : Tracks p (s.routedMessage source resp).1 log := hk.of_same rfl rfl rfl rfl
    simp only [Doip.step, routed]
    split
    · exact hk.leaves []
    split
    · exact (hrouted.leaves []).ends rfl rfl
    · exact hrouted.leaves _
  | giveUp =>
    refine Tracks.leaves ?_ []
    exact hk.of_same rfl rfl rfl rfl
  | tick now =>
    refine Tracks.leaves ?_ []
    exact hk.of_same rfl rfl rfl rfl

end Server

/-- Behind each step: the messages served on the connection are gated, and the tester that the
server keeps is the one that they registered, or none when the connection ended. -/
def KeepsGate (p : Server γ ε) (hist : List (Trace.Entry (Server γ ε) Event Done)) : Prop :=
  Trace.Along (fun hist x =>
    Trace.Along p.Gate (connection hist ++ x.label.served) ∧
      x.after.registered =
        (if x.label.ended then none else p.registers (connection hist ++ x.label.served))) hist

/-- In every run of an entity, whatever bytes its connections carry: a message calls the diagnostic
server or the router only when it is a diagnostic message from the tester that the connection
registered, and hands over its request; the tester that the server keeps is that of the first
activation on the connection that the policy allows; and when the connection ends no tester is
registered. -/
theorem gate_kept (w : Serve γ) (h : Uds.Application.Hooks ε) (c : Uds.Application.Config)
    (s : Server γ ε) (hs : s.activated = false) (es : List Event) :
    KeepsGate s (Trace.history (step w h c) s es) := by
  refine (Trace.run_along (C := fun _ _ => True)
    (I := fun s' hist => Server.Tracks s s' (connection hist)) ?_ ?_ es fun _ _ _ _ => trivial).2
  · exact ⟨rfl, rfl, by simp [Server.registered, hs]; rfl, .nil _⟩
  · intro es e hk _
    have hl := hk.step (w := w) (h := h) (c := c) e
    refine ⟨?_, hl.gated, ?_⟩
    · rw [connection_snoc]
      exact hl.tracks
    · refine hl.tracks.tester.trans ?_
      by_cases hended : (step w h c (Trace.final (step w h c) s es) e).2.ended = true
      · rw [if_pos hended, Trace.entry_label, if_pos hended]
        rfl
      · rw [if_neg hended, Trace.entry_label, if_neg hended]

example : (Trace.history (step ({} : Serve Unit) {} {}) bench
    [.pass (.bytes (testerPresent 0x0E80 ++ activate 0x0E80 ++ testerPresent 0x0E80))
      (fun _ => true) (fun _ => 0) maxResp]).map (fun x => x.label.served.map
        fun m => m.calls.length) = [[0, 0, 1]] := by
  decide +kernel

theorem gate_kept_bench :
    KeepsGate bench (Trace.history (step ({} : Serve Unit) {} {}) bench
      [.pass (.bytes (testerPresent 0x0E80 ++ activate 0x0E80 ++ testerPresent 0x0E80))
        (fun _ => true) (fun _ => 0) maxResp, .pass .dropped (fun _ => true) (fun _ => 0) maxResp]) :=
  gate_kept {} {} {} bench rfl _

end BloblyEmb.Doip
