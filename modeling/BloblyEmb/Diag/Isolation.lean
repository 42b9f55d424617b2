import BloblyEmb.Uds.Access
import BloblyEmb.Diag.Reset

/-!
# Two sides that share a server

Each side sees its own unlock and its own exchange only. Two connections that differ in what the
other side keeps are `Alike` for a side, and every call that serves nothing of the other side keeps
them so, with the same outcome.
-/
namespace BloblyEmb.Diag
open Uds.Application

variable {ε : Type} {node : Node ε} {c c' : Connection ε} {t : Bool}

/-! ## What a side keeps -/

/-- The server but for its unlocked level, which is `u`, and the exchange loaded. -/
def mask (s : Server ε) (u : UInt8) : Server ε :=
  { s with unlocked := u, saLevel := 0, saSeed := .replicate _ 0 }

/-- The unlocked level that a side sees. -/
def own (t : Bool) (c : Connection ε) : UInt8 :=
  if c.unlockRemote = t then c.server.unlocked else 0

/-- The level that a pending reset hides from a side. -/
def hiddenOf (t : Bool) (c : Connection ε) : UInt8 := if c.heldBackRemote = t then c.heldBack else 0

/-- The server that a request of a side meets. -/
def met (node : Node ε) (t : Bool) (c : Connection ε) : Server ε :=
  { ((c.refreshDids node).enter t).1.server with handoffElsewhere := t && !node.handoffRemote }

/-- What the server makes of a request of a side. -/
def handled (node : Node ε) (t functional : Bool) (req : List UInt8) (c : Connection ε) :
    Server ε × Reply :=
  if functional then (met node t c).handleFunctional node.hooks node.config req
  else (met node t c).handle node.hooks node.config req

/-- The connections differ in what the other side keeps. -/
structure Alike (t : Bool) (c c' : Connection ε) : Prop where
  link : c.link = c'.link
  resp : c.resp = c'.resp
  remoteOwns : c.remoteOwns = c'.remoteOwns
  remote : c.remote = c'.remote
  server : mask c.server (own t c) = mask c'.server (own t c')
  saLevel : c.saLevel t = c'.saLevel t
  saSeed : c.saSeed t = c'.saSeed t
  saEpoch : c.saEpoch t = c'.saEpoch t
  hidden : hiddenOf t c = hiddenOf t c'
  hiddenEpoch : hiddenOf t c ≠ 0 → c.heldBackEpoch = c'.heldBackEpoch

/-- An unlock is held back by a pending reset only, and with nothing unlocked. -/
structure Settled (c : Connection ε) : Prop where
  reset : c.heldBack ≠ 0 → c.server.resetReq ≠ 0
  locked : c.heldBack ≠ 0 → c.server.unlocked = 0

/-- Without what the other side keeps. -/
def forget (t : Bool) (c : Connection ε) : Connection ε :=
  { c with
    server := { c.server with unlocked := own t c }
    heldBack := hiddenOf t c
    saLevel := fun side => if side = t then c.saLevel side else 0
    saSeed := fun side => if side = t then c.saSeed side else .replicate _ 0 }

theorem alike_forget (t : Bool) (c : Connection ε) : Alike t c (forget t c) := by
  have hown : own t (forget t c) = own t c := by
    simp only [own, forget]
    split <;> rfl
  have hhidden : hiddenOf t (forget t c) = hiddenOf t c := by
    simp only [hiddenOf, forget]
    split <;> rfl
  refine ⟨rfl, rfl, rfl, rfl, ?_, ?_, ?_, rfl, hhidden.symm, fun _ => rfl⟩
  · rw [hown]
    rfl
  · exact (if_pos rfl).symm
  · exact (if_pos rfl).symm

theorem settled_forget (h : Settled c) : Settled (forget t c) := by
  have hheld (hne : (forget t c).heldBack ≠ 0) : c.heldBack ≠ 0 := by
    simp only [forget, hiddenOf] at hne
    split at hne
    · exact hne
    · exact absurd rfl hne
  refine ⟨fun hne => h.reset (hheld hne), fun hne => ?_⟩
  simp only [forget, own, h.locked (hheld hne), ite_self]

theorem Alike.link_moved (h : Alike t c c') (l : Isotp.Link) :
    Alike t { c with link := l } { c' with link := l } :=
  ⟨rfl, h.resp, h.remoteOwns, h.remote, h.server, h.saLevel, h.saSeed, h.saEpoch, h.hidden,
    h.hiddenEpoch⟩

theorem Alike.remote_moved (h : Alike t c c') (r : RemoteReset) :
    Alike t { c with remote := r } { c' with remote := r } :=
  ⟨h.link, h.resp, h.remoteOwns, rfl, h.server, h.saLevel, h.saSeed, h.saEpoch, h.hidden,
    h.hiddenEpoch⟩

/-! ## Requests -/

/-- What a request meets, from what the side sees. -/
theorem met_eq (node : Node ε) (t : Bool) (c : Connection ε) : met node t c =
    { mask c.server (own t c) with
      dids := node.refresh c.server.ctx c.server.dids
      saLevel := if c.saEpoch t = c.server.sessionEpoch then c.saLevel t else 0
      saSeed := c.saSeed t
      handoffElsewhere := t && !node.handoffRemote } := by
  simp only [met, Connection.enter, Connection.refreshDids, mask, own]
  congr 1
  grind

theorem Alike.met (h : Alike t c c') (node : Node ε) : met node t c = met node t c' := by
  have hctx : c.server.ctx = c'.server.ctx := congrArg (·.ctx) h.server
  have hdids : c.server.dids = c'.server.dids := congrArg (·.dids) h.server
  have hepoch : c.server.sessionEpoch = c'.server.sessionEpoch := congrArg (·.sessionEpoch) h.server
  rw [met_eq, met_eq, h.server, hctx, hdids, hepoch, h.saLevel, h.saSeed, h.saEpoch]

/-- What the end of a request leaves. -/
theorem leave_kept (c : Connection ε) (before : UInt32) (held : UInt8) (t : Bool) :
    (c.leave before held t).resp = c.resp ∧
      (c.leave before held t).remoteOwns =
        (if c.server.sessionEpoch ≠ before then t else c.remoteOwns) ∧
      (c.leave before held t).saLevel = Function.update c.saLevel t c.server.saLevel ∧
      (c.leave before held t).saSeed = Function.update c.saSeed t c.server.saSeed ∧
      (c.leave before held t).saEpoch = Function.update c.saEpoch t c.server.sessionEpoch ∧
      ∀ u, mask (c.leave before held t).server u = mask c.server u := by
  simp only [Connection.leave]
  split
  · split <;> exact ⟨rfl, rfl, rfl, rfl, rfl, fun _ => rfl⟩
  split
  · split
    · split <;> exact ⟨rfl, rfl, rfl, rfl, rfl, fun _ => rfl⟩
    · split <;> exact ⟨rfl, rfl, rfl, rfl, rfl, fun _ => rfl⟩
  · split <;> exact ⟨rfl, rfl, rfl, rfl, rfl, fun _ => rfl⟩

/-- The side served sees what its request left unlocked. -/
theorem own_leave (c : Connection ε) (before : UInt32) (held : UInt8) (t : Bool)
    (hheld : held ≠ 0 → c.unlockRemote ≠ t) :
    own t (c.leave before held t) = c.server.unlocked := by
  simp only [Connection.leave, own]
  grind

/-- What it hides is the other side's. -/
theorem hiddenOf_leave (c : Connection ε) (before : UInt32) (held : UInt8) (t : Bool)
    (hc : c.heldBack = 0) : hiddenOf t (c.leave before held t) = 0 := by
  simp only [Connection.leave, hiddenOf]
  cases t <;> grind

theorem settled_leave (c : Connection ε) (before : UInt32) (held : UInt8) (t : Bool)
    (hc : c.heldBack = 0) : Settled (c.leave before held t) := by
  constructor <;>
  · simp only [Connection.leave]
    grind

/-- The connection between `enter` and `leave`, once the server has handled the request. -/
def within (node : Node ε) (t functional : Bool) (req : List UInt8) (c : Connection ε) :
    Connection ε :=
  { ((c.refreshDids node).enter t).1 with
    server := { (handled node t functional req c).1 with handoffElsewhere := false }
    resp := if t then c.resp else Buffer.fill c.resp 0 (handled node t functional req c).2.stores }

theorem handleFor_eq (node : Node ε) (c : Connection ε) (t functional : Bool) (req : List UInt8) :
    (c.refreshDids node).handleFor node t functional req =
      ((within node t functional req c).leave c.server.sessionEpoch
          ((c.refreshDids node).enter t).2.2 t, (handled node t functional req c).2) := rfl

theorem enter_held (c : Connection ε) (node : Node ε) :
    ((c.refreshDids node).enter t).2.2 ≠ 0 → c.unlockRemote ≠ t := by
  simp only [Connection.enter, Connection.refreshDids]
  grind

theorem Alike.handled (h : Alike t c c') (node : Node ε) (functional : Bool) (req : List UInt8) :
    handled node t functional req c = handled node t functional req c' := by
  simp only [Diag.handled, h.met node]

/-- A request of the side has the same answer, and leaves what is alike. -/
theorem Alike.handleFor (h : Alike t c c') (hc : c.heldBack = 0) (hc' : c'.heldBack = 0)
    (node : Node ε) (functional : Bool) (req : List UInt8) :
    Alike t ((c.refreshDids node).handleFor node t functional req).1
        ((c'.refreshDids node).handleFor node t functional req).1 ∧
      ((c.refreshDids node).handleFor node t functional req).2 =
        ((c'.refreshDids node).handleFor node t functional req).2 := by
  have hepoch : c.server.sessionEpoch = c'.server.sessionEpoch := congrArg (·.sessionEpoch) h.server
  have hsame := h.handled node functional req
  have hserver : (within node t functional req c).server =
      (within node t functional req c').server := by
    simp only [within, hsame]
  rw [handleFor_eq, handleFor_eq]
  refine ⟨?_, by rw [hsame]⟩
  obtain ⟨hresp, howns, hlevel, hseed, hentry, hmask⟩ := leave_kept (within node t functional req c)
    c.server.sessionEpoch ((c.refreshDids node).enter t).2.2 t
  obtain ⟨hresp', howns', hlevel', hseed', hentry', hmask'⟩ :=
    leave_kept (within node t functional req c') c'.server.sessionEpoch
      ((c'.refreshDids node).enter t).2.2 t
  obtain ⟨-, hlink, hremote⟩ := Connection.leave_spec (within node t functional req c)
    c.server.sessionEpoch ((c.refreshDids node).enter t).2.2 t
  obtain ⟨-, hlink', hremote'⟩ := Connection.leave_spec (within node t functional req c')
    c'.server.sessionEpoch ((c'.refreshDids node).enter t).2.2 t
  have hown := own_leave (within node t functional req c) c.server.sessionEpoch _ t
    (enter_held c node)
  have hown' := own_leave (within node t functional req c') c'.server.sessionEpoch _ t
    (enter_held c' node)
  have hhidden := hiddenOf_leave (within node t functional req c) c.server.sessionEpoch
    ((c.refreshDids node).enter t).2.2 t hc
  have hhidden' := hiddenOf_leave (within node t functional req c') c'.server.sessionEpoch
    ((c'.refreshDids node).enter t).2.2 t hc'
  constructor
  · rw [hlink, hlink']
    exact h.link
  · rw [hresp, hresp']
    simp only [within, hsame, h.resp]
  · rw [howns, howns', hserver, hepoch]
    exact congrArg (ite _ _) h.remoteOwns
  · rw [hremote, hremote']
    exact h.remote
  · rw [hmask, hmask', hown, hown', hserver]
  · rw [hlevel, hlevel', hserver, Function.update_self, Function.update_self]
  · rw [hseed, hseed', hserver, Function.update_self, Function.update_self]
  · rw [hentry, hentry', hserver, Function.update_self, Function.update_self]
  · rw [hhidden, hhidden']
  · intro hne
    exact absurd hhidden hne

theorem settled_handleFor (hc : c.heldBack = 0) (node : Node ε) (t functional : Bool)
    (req : List UInt8) : Settled ((c.refreshDids node).handleFor node t functional req).1 := by
  rw [handleFor_eq]
  exact settled_leave _ _ _ _ hc

/-! ## The reset -/

/-- A cancelled reset gives back what it hid. -/
theorem own_cancelReset (hc : Settled c) (t : Bool) : own t c.cancelReset =
    if hiddenOf t c ≠ 0 ∧ c.heldBackEpoch = c.server.sessionEpoch then hiddenOf t c
    else own t c := by
  have hlocked := hc.locked
  simp only [Connection.cancelReset, own, hiddenOf]
  grind

theorem cancelReset_kept (c : Connection ε) : c.cancelReset.heldBack = 0 ∧
    c.cancelReset.resp = c.resp ∧ c.cancelReset.remoteOwns = c.remoteOwns ∧
    c.cancelReset.saLevel = c.saLevel ∧ c.cancelReset.saSeed = c.saSeed ∧
    c.cancelReset.saEpoch = c.saEpoch ∧
    ∀ u, mask c.cancelReset.server u = { mask c.server u with resetReq := 0 } := by
  simp only [Connection.cancelReset, true_and]
  split <;> exact ⟨rfl, rfl, rfl, rfl, rfl, fun _ => rfl⟩

theorem settled_of_free (hc : c.heldBack = 0) : Settled c :=
  ⟨fun hne => absurd hc hne, fun hne => absurd hc hne⟩

theorem hiddenOf_free (hc : c.heldBack = 0) (t : Bool) : hiddenOf t c = 0 := by
  simp only [hiddenOf, hc, ite_self]

theorem Alike.cancelReset (h : Alike t c c') (hc : Settled c) (hc' : Settled c') :
    Alike t c.cancelReset c'.cancelReset := by
  have hepoch : c.server.sessionEpoch = c'.server.sessionEpoch := congrArg (·.sessionEpoch) h.server
  obtain ⟨hfree, hresp, howns, hlevel, hseed, hentry, hmask⟩ := cancelReset_kept c
  obtain ⟨hfree', hresp', howns', hlevel', hseed', hentry', hmask'⟩ := cancelReset_kept c'
  obtain ⟨-, hlink, hremote⟩ := Connection.cancelReset_spec c
  obtain ⟨-, hlink', hremote'⟩ := Connection.cancelReset_spec c'
  have hvisible : own t c = own t c' := congrArg (·.unlocked) h.server
  have hown : own t c.cancelReset = own t c'.cancelReset := by
    rw [own_cancelReset hc, own_cancelReset hc', ← h.hidden, ← hvisible, ← hepoch]
    by_cases hne : hiddenOf t c ≠ 0
    · rw [h.hiddenEpoch hne]
    · rw [if_neg fun hx => hne hx.1, if_neg fun hx => hne hx.1]
  constructor
  · rw [hlink, hlink', h.link]
  · rw [hresp, hresp', h.resp]
  · rw [howns, howns', h.remoteOwns]
  · rw [hremote, hremote', h.remote]
  · have hserver := congrArg (fun s => { mask s (own t c.cancelReset) with resetReq := 0 }) h.server
    rw [hmask, hmask', ← hown]
    exact hserver
  · rw [hlevel, hlevel', h.saLevel]
  · rw [hseed, hseed', h.saSeed]
  · rw [hentry, hentry', h.saEpoch]
  · rw [hiddenOf_free hfree, hiddenOf_free hfree']
  · intro hne
    exact absurd (hiddenOf_free hfree t) hne

theorem Alike.sendAnswer (h : Alike t c c') (hc : Settled c) (hc' : Settled c') (n : ℕ) :
    Alike t (c.sendAnswer n) (c'.sendAnswer n) := by
  have hlink : c'.link.send (Buffer.prefixOf c'.resp n) =
      c.link.send (Buffer.prefixOf c.resp n) := by
    rw [h.link, h.resp]
  simp only [Connection.sendAnswer, hlink]
  split
  · split
    · exact (h.link_moved _).cancelReset ⟨hc.reset, hc.locked⟩ ⟨hc'.reset, hc'.locked⟩
    · exact h.link_moved _
  · exact h

theorem settled_sendAnswer (hc : Settled c) (n : ℕ) : Settled (c.sendAnswer n) := by
  simp only [Connection.sendAnswer]
  split
  · split
    · exact settled_of_free (cancelReset_kept _).1
    · exact ⟨hc.reset, hc.locked⟩
  · exact hc

/-! ## The server's clock and sessions -/

/-- What the server does to itself, blind to the unlock and the exchange. -/
structure Blind (op : Server ε → Server ε) : Prop where
  masked : ∀ s u v, mask (op (mask s u)) v = mask (op s) v
  shown : ∀ s, (op (mask s s.unlocked)).unlocked = (op s).unlocked
  locked : ∀ s, (op (mask s 0)).unlocked = 0
  reset : ∀ s, (op s).resetReq = s.resetReq
  kept : ∀ s, s.unlocked = 0 → (op s).unlocked = 0

theorem Blind.own {op : Server ε → Server ε} (hop : Blind op) (t : Bool) (c : Connection ε) :
    own t { c with server := op c.server } = (op (mask c.server (own t c))).unlocked := by
  by_cases ht : c.unlockRemote = t
  · simp only [Diag.own, if_pos ht]
    exact (hop.shown _).symm
  · simp only [Diag.own, if_neg ht]
    exact (hop.locked _).symm

theorem Alike.blind (h : Alike t c c') {op : Server ε → Server ε} (hop : Blind op) :
    Alike t { c with server := op c.server } { c' with server := op c'.server } := by
  have hown : own t { c with server := op c.server } =
      own t { c' with server := op c'.server } := by
    rw [hop.own, hop.own, h.server]
  refine ⟨h.link, h.resp, h.remoteOwns, h.remote, ?_, h.saLevel, h.saSeed, h.saEpoch, h.hidden,
    h.hiddenEpoch⟩
  rw [← hown]
  show mask (op c.server) _ = mask (op c'.server) _
  rw [← hop.masked c.server (own t c), ← hop.masked c'.server (own t c'), h.server]

theorem settled_blind (hc : Settled c) {op : Server ε → Server ε} (hop : Blind op) :
    Settled { c with server := op c.server } :=
  ⟨fun hne => by rw [hop.reset]; exact hc.reset hne, fun hne => hop.kept _ (hc.locked hne)⟩

theorem blind_enterSession (h : Hooks ε) (session : UInt8) :
    Blind fun s : Server ε => s.enterSession h session where
  masked s u v := by
    simp only [Server.enterSession, Server.restoreDtcSetting, mask]
    split
    · split <;> rfl
    · rfl
  shown s := by
    rw [(s.relocked_enterSession session).2.1,
      ((mask s s.unlocked).relocked_enterSession session).2.1]
  locked s := ((mask s 0).relocked_enterSession session).2.1
  reset s := s.resetReq_enterSession session
  kept s _ := (s.relocked_enterSession session).2.1

theorem blind_holdS3 (now : ℕ) : Blind fun s : Server ε => s.holdS3 now :=
  ⟨fun _ _ _ => rfl, fun _ => rfl, fun _ => rfl, fun _ => rfl, fun _ hz => hz⟩

theorem unlocked_startDelay (cfg : Config) (s : Server ε) (now : ℕ) :
    (s.startDelay cfg now).unlocked = s.unlocked := by
  simp only [Server.startDelay]
  split <;> rfl

theorem mask_startDelay (cfg : Config) (s : Server ε) (now : ℕ) (u : UInt8) :
    (mask s u).startDelay cfg now = mask (s.startDelay cfg now) u := by
  by_cases harm : s.saArmDelay = true
  · simp only [Server.startDelay, mask, harm, if_true]
  · simp only [Server.startDelay, mask, harm, Bool.false_eq_true, if_false]

theorem blind_tick (h : Hooks ε) (cfg : Config) (now : ℕ) :
    Blind fun s : Server ε => s.tick h cfg now where
  masked s u v := by
    simp only [Server.tick, mask_startDelay]
    show mask (if (s.startDelay cfg now).expired cfg now then _ else _) v = _
    split
    · exact (blind_enterSession h Uds.sessionDefault).masked _ u v
    · rfl
  shown s := by
    simp only [Server.tick, mask_startDelay]
    show (if (s.startDelay cfg now).expired cfg now then _ else _ : Server ε).unlocked = _
    split
    · rw [← unlocked_startDelay cfg s now]
      exact (blind_enterSession h Uds.sessionDefault).shown _
    · exact (unlocked_startDelay cfg s now).symm
  locked s := by
    simp only [Server.tick, mask_startDelay]
    split
    · exact (Server.relocked_enterSession _ Uds.sessionDefault).2.1
    · rfl
  reset s := s.resetReq_tick now
  kept s hz := by
    simp only [Server.tick]
    split
    · exact (Server.relocked_enterSession _ Uds.sessionDefault).2.1
    · exact (unlocked_startDelay cfg s now).trans hz

theorem Alike.applyAnsweredReset (h : Alike t c c') (node : Node ε) :
    Alike t (c.applyAnsweredReset node).1 (c'.applyAnsweredReset node).1 ∧
      (c.applyAnsweredReset node).2 = (c'.applyAnsweredReset node).2 := by
  have hreq : c.server.resetReq = c'.server.resetReq := congrArg (·.resetReq) h.server
  have hdue : c.resetDue = c'.resetDue := by
    simp only [Connection.resetDue, hreq, h.link, h.remote]
  have hreset (s : Server ε) (u v : UInt8) :
      mask ((mask s u).resetState node.hooks) v = mask (s.resetState node.hooks) v := by
    simp only [Server.resetState, Server.restoreDtcSetting, mask]
    split <;> rfl
  have hlocked (d : Connection ε) :
      own t { d with server := d.server.resetState node.hooks, heldBack := 0 } = 0 := by
    simp only [own, (d.server.relocked_resetState (h := node.hooks)).2.1, ite_self]
  simp only [Connection.applyAnsweredReset, ← hdue]
  split
  · refine ⟨⟨h.link, h.resp, h.remoteOwns, h.remote, ?_, h.saLevel, h.saSeed, h.saEpoch, ?_, ?_⟩,
      rfl⟩
    · rw [hlocked, hlocked]
      show mask (c.server.resetState node.hooks) 0 = mask (c'.server.resetState node.hooks) 0
      rw [← hreset c.server (own t c), ← hreset c'.server (own t c'), h.server]
    · rw [hiddenOf_free rfl, hiddenOf_free rfl]
    · intro hne
      exact absurd (hiddenOf_free rfl t) hne
  · exact ⟨h, rfl⟩

theorem settled_applyAnsweredReset (hc : Settled c) (node : Node ε) :
    Settled (c.applyAnsweredReset node).1 := by
  simp only [Connection.applyAnsweredReset]
  split
  · exact settled_of_free rfl
  · exact hc

/-! ## The calls -/

theorem settled_with (h : Settled c) (l : Isotp.Link) (r : RemoteReset) :
    Settled { c with link := l, remote := r } := ⟨h.reset, h.locked⟩

theorem Settled.free (h : Settled c) (hreq : c.server.resetReq = 0) : c.heldBack = 0 := by
  by_contra hne
  exact h.reset hne hreq

theorem settled_serveBus (hc : c.heldBack = 0) (node : Node ε) (functional : Bool)
    (req : List UInt8) : Settled (c.serveBus node functional req).1 := by
  simp only [Connection.serveBus]
  exact settled_sendAnswer (settled_with (settled_handleFor hc node false functional req) _ _) _

theorem Alike.serveBus (h : Alike false c c') (hc : c.heldBack = 0) (hc' : c'.heldBack = 0)
    (node : Node ε) (functional : Bool) (req : List UInt8) :
    Alike false (c.serveBus node functional req).1 (c'.serveBus node functional req).1 ∧
      (c.serveBus node functional req).2 = (c'.serveBus node functional req).2 := by
  obtain ⟨halike, hreply⟩ := h.handleFor hc hc' node functional req
  have hs := settled_handleFor hc node false functional req
  have hs' := settled_handleFor hc' node false functional req
  simp only [Connection.serveBus, ← hreply]
  generalize (c.refreshDids node).handleFor node false functional req = r at *
  generalize (c'.refreshDids node).handleFor node false functional req = r' at *
  have hreq : r.1.server.resetReq = r'.1.server.resetReq := congrArg (·.resetReq) halike.server
  rw [← halike.remote, ← hreq]
  refine ⟨?_, rfl⟩
  exact (halike.remote_moved _).sendAnswer (settled_with hs r.1.link _)
    (settled_with hs' r'.1.link _) _

theorem Alike.functional (h : Alike t c c') (hc : Settled c) (hc' : Settled c') (node : Node ε)
    (f : Frame) (hside : ∀ u ∈ (c.functional node f).2.served, u.1 = t) :
    Alike t (c.functional node f).1 (c'.functional node f).1 ∧
      (c.functional node f).2 = (c'.functional node f).2 := by
  have hreq : c.server.resetReq = c'.server.resetReq := congrArg (·.resetReq) h.server
  simp only [Connection.functional, ← h.link, ← hreq] at hside ⊢
  split
  · exact ⟨h, rfl⟩
  rename_i hsingle
  rw [if_neg hsingle] at hside
  split
  · exact ⟨h, rfl⟩
  rename_i hserves
  rw [if_neg hserves] at hside
  have hcalm : c.server.resetReq = 0 := by
    by_contra hno
    exact hserves (.inr (.inr (.inr (.inr hno))))
  have ht : t = false := (hside _ rfl).symm
  subst ht
  obtain ⟨halike, hlog⟩ := h.serveBus (hc.free hcalm) (hc'.free (hreq ▸ hcalm)) node true
    ((f.data.drop 1).take (f.data.getD 0 0 &&& 0x0F).toNat)
  obtain ⟨happlied, hperformed⟩ := halike.applyAnsweredReset node
  refine ⟨happlied, ?_⟩
  rw [hlog, hperformed]

theorem settled_functional (hc : Settled c) (node : Node ε) (f : Frame) :
    Settled (c.functional node f).1 := by
  simp only [Connection.functional]
  split
  · exact hc
  split
  · exact hc
  rename_i hserves
  have hcalm : c.server.resetReq = 0 := by
    by_contra hno
    exact hserves (.inr (.inr (.inr (.inr hno))))
  exact settled_applyAnsweredReset (settled_serveBus (hc.free hcalm) node true _) node

theorem own_cut (t : Bool) (c : Connection ε) :
    own t (cut c) = if t then 0 else own t c := by
  simp only [own, cut]
  cases t <;> grind

theorem hiddenOf_cut (t : Bool) (c : Connection ε) :
    hiddenOf t (cut c) = if t then 0 else hiddenOf t c := by
  simp only [hiddenOf, cut]
  cases t <;> grind

theorem mask_cut (c : Connection ε) (u : UInt8) : mask (cut c).server u = mask c.server u := by
  simp only [cut]
  split <;> rfl

theorem Alike.cut (h : Alike t c c') : Alike t (cut c) (cut c') := by
  have hvisible : own t c = own t c' := congrArg (·.unlocked) h.server
  refine ⟨h.link, h.resp, rfl, h.remote, ?_, ?_, h.saSeed, h.saEpoch, ?_, ?_⟩
  · rw [mask_cut, mask_cut, own_cut, own_cut, ← hvisible]
    have hmask := congrArg (fun s => mask s (if t then 0 else own t c)) h.server
    exact hmask
  · cases t with
    | true => rfl
    | false => exact h.saLevel
  · rw [hiddenOf_cut, hiddenOf_cut, h.hidden]
  · intro hne
    refine h.hiddenEpoch fun hz => hne ?_
    rw [hiddenOf_cut, hz, ite_self]

theorem settled_cut (h : Settled c) : Settled (cut c) := by
  have hreq : (cut c).server.resetReq = c.server.resetReq := by
    simp only [cut]
    split <;> rfl
  have hheld (hne : (cut c).heldBack ≠ 0) : c.heldBack ≠ 0 := by
    simp only [cut] at hne
    split at hne
    · exact absurd rfl hne
    · exact hne
  refine ⟨fun hne => by rw [hreq]; exact h.reset (hheld hne), fun hne => ?_⟩
  have hz := h.locked (hheld hne)
  simp only [cut]
  split
  · rfl
  · exact hz

theorem Alike.dropReset (h : Alike t c c') (hc : Settled c) (hc' : Settled c') :
    Alike t (dropReset c) (dropReset c') := by
  have hdropped := h.remote_moved c.remote.dropped.2
  simp only [Diag.dropReset, ← h.remote]
  split
  · exact hdropped.cancelReset ⟨hc.reset, hc.locked⟩ ⟨hc'.reset, hc'.locked⟩
  · exact hdropped

theorem settled_dropReset (hc : Settled c) : Settled (dropReset c) := by
  simp only [dropReset]
  split
  · exact settled_of_free (cancelReset_kept _).1
  · exact ⟨hc.reset, hc.locked⟩

theorem Alike.dropSession (h : Alike t c c') (node : Node ε) :
    Alike t (dropSession node c) (dropSession node c') := by
  by_cases howns : c.remoteOwns = true
  · have howns' : c'.remoteOwns = true := h.remoteOwns ▸ howns
    simp only [Diag.dropSession, if_pos howns, if_pos howns']
    exact h.blind (blind_enterSession node.hooks Uds.sessionDefault)
  · have howns' : ¬c'.remoteOwns = true := h.remoteOwns ▸ howns
    simp only [Diag.dropSession, if_neg howns, if_neg howns']
    exact h

theorem settled_dropSession (hc : Settled c) (node : Node ε) : Settled (dropSession node c) := by
  simp only [dropSession]
  split
  · exact settled_blind hc (blind_enterSession node.hooks Uds.sessionDefault)
  · exact hc

theorem Alike.housekeep (h : Alike t c c') (node : Node ε) (now : UInt64) :
    Alike t (c.housekeep node now).1 (c'.housekeep node now).1 ∧
      (c.housekeep node now).2 = (c'.housekeep node now).2 := by
  have hticked : Alike t { c with link := c.link.tick now }
      { c' with link := c'.link.tick now } := by
    rw [← h.link]
    exact h.link_moved _
  obtain ⟨happlied, hperformed⟩ := hticked.applyAnsweredReset node
  simp only [Connection.housekeep, ← hperformed]
  generalize (({ c with link := c.link.tick now } : Connection ε).applyAnsweredReset node) = r at *
  generalize (({ c' with link := c'.link.tick now } : Connection ε).applyAnsweredReset node) = r' at *
  have htick := blind_tick node.hooks node.config now.toNat
  have hflight : (inFlight r'.1.link = true ∨ r'.1.remote.inflight = true) ↔
      (inFlight r.1.link = true ∨ r.1.remote.inflight = true) := by
    rw [happlied.link, happlied.remote]
  simp only [hflight, and_true]
  split
  · exact (happlied.blind (blind_holdS3 now.toNat)).blind htick
  · exact happlied.blind htick

theorem settled_housekeep (hc : Settled c) (node : Node ε) (now : UInt64) :
    Settled (c.housekeep node now).1 := by
  have happlied := settled_applyAnsweredReset (settled_with hc (c.link.tick now) c.remote) node
  have htick := blind_tick node.hooks node.config now.toNat
  simp only [Connection.housekeep]
  split
  · exact settled_blind (settled_blind happlied (blind_holdS3 now.toNat)) htick
  · exact settled_blind happlied htick

theorem Alike.onFrame (h : Alike t c c') (hc : Settled c) (hc' : Settled c') (node : Node ε)
    (now : UInt64) (f : Frame) (hside : ∀ u ∈ (c.onFrame node now f).2.served, u.1 = t) :
    Alike t (c.onFrame node now f).1 (c'.onFrame node now f).1 ∧
      (c.onFrame node now f).2 = (c'.onFrame node now f).2 := by
  by_cases hext : f.ext = true
  · simp only [Connection.onFrame, if_pos hext]
    exact ⟨h, trivial⟩
  by_cases hrx : f.id = node.rxId
  · simp only [Connection.onFrame, if_neg hext, if_pos hrx, ← h.link]
    exact ⟨h.link_moved _, trivial⟩
  by_cases hfun : node.functionalId ≠ 0 ∧ f.id = node.functionalId
  · simp only [Connection.onFrame, if_neg hext, if_neg hrx, if_pos hfun] at hside ⊢
    exact h.functional hc hc' node f hside
  · simp only [Connection.onFrame, if_neg hext, if_neg hrx, if_neg hfun]
    exact ⟨h, trivial⟩

theorem settled_onFrame (hc : Settled c) (node : Node ε) (now : UInt64) (f : Frame) :
    Settled (c.onFrame node now f).1 := by
  simp only [Connection.onFrame]
  split
  · exact hc
  split
  · exact ⟨hc.reset, hc.locked⟩
  split
  · exact settled_functional hc node f
  · exact hc

/-- The request of the link, when it is served. -/
theorem serve_cases (node : Node ε) (c : Connection ε) :
    c.serve node = ({ c with link := c.link.take.2 }, {}) ∨
      c.server.resetReq = 0 ∧ ∃ req, c.link.take.1 = some req ∧
        c.serve node = ({ c with link := c.link.take.2 } : Connection ε).serveBus node false req := by
  simp only [Connection.serve, takeRequest]
  by_cases hblocked : c.link.take.2.busy = true ∨ decide (c.server.resetReq ≠ 0) = true
  · rw [if_pos hblocked]
    exact .inl rfl
  rw [if_neg hblocked]
  have hcalm : c.server.resetReq = 0 := by
    by_contra hno
    exact hblocked (.inr (decide_eq_true hno))
  cases c.link.take.1 with
  | none => exact .inl rfl
  | some req =>
    dsimp only
    split
    · exact .inr ⟨hcalm, req, rfl, rfl⟩
    · exact .inl rfl

theorem Alike.serve (h : Alike t c c') (hc : Settled c) (hc' : Settled c') (node : Node ε)
    (hside : ∀ u ∈ (c.serve node).2.served, u.1 = t) :
    Alike t (c.serve node).1 (c'.serve node).1 ∧ (c.serve node).2 = (c'.serve node).2 := by
  have hreq : c.server.resetReq = c'.server.resetReq := congrArg (·.resetReq) h.server
  have hlink := h.link_moved c.link.take.2
  simp only [Connection.serve, ← h.link, ← hreq] at hside ⊢
  have htake : (takeRequest c.link (decide (c.server.resetReq ≠ 0))).2 = c.link.take.2 := rfl
  generalize htaken : (takeRequest c.link (decide (c.server.resetReq ≠ 0))).1 = taken at hside ⊢
  rw [htake] at hside ⊢
  cases taken with
  | none => exact ⟨hlink, rfl⟩
  | some req =>
    dsimp only at hside ⊢
    split
    · rename_i hlen
      rw [if_pos hlen] at hside
      have ht : t = false := (hside _ rfl).symm
      subst ht
      have hcalm : c.server.resetReq = 0 := by
        by_contra hno
        simp [takeRequest, hno] at htaken
      exact hlink.serveBus (hc.free hcalm) (hc'.free (hreq ▸ hcalm)) node false req
    · exact ⟨hlink, rfl⟩

theorem settled_serve (hc : Settled c) (node : Node ε) : Settled (c.serve node).1 := by
  rcases serve_cases node c with heq | ⟨hcalm, req, -, heq⟩
  · rw [heq]
    exact ⟨hc.reset, hc.locked⟩
  · rw [heq]
    exact settled_serveBus (c := { c with link := c.link.take.2 }) (hc.free hcalm) node false req

theorem Alike.serveRemote (h : Alike t c c') (hc : Settled c) (hc' : Settled c') (node : Node ε)
    (req : List UInt8) (functional : Bool)
    (hside : ∀ u ∈ (c.serveRemote node req functional).2.served, u.1 = t) :
    Alike t (c.serveRemote node req functional).1 (c'.serveRemote node req functional).1 ∧
      (c.serveRemote node req functional).2 = (c'.serveRemote node req functional).2 := by
  have hreq : c.server.resetReq = c'.server.resetReq := congrArg (·.resetReq) h.server
  have hbegun := h.remote_moved c.remote.begin
  simp only [Connection.serveRemote, ← h.remote, ← hreq] at hside ⊢
  split
  · exact ⟨hbegun, rfl⟩
  rename_i hserves
  rw [if_neg hserves] at hside
  have hcalm : c.server.resetReq = 0 := by
    by_contra hno
    exact hserves (.inr hno)
  have ht : t = true := (hside _ rfl).symm
  subst ht
  obtain ⟨halike, hreply⟩ := hbegun.handleFor (hc.free hcalm) (hc'.free (hreq ▸ hcalm)) node
    functional req
  generalize (({ c with remote := c.remote.begin } : Connection ε).refreshDids node).handleFor
    node true functional req = r at *
  generalize (({ c' with remote := c.remote.begin } : Connection ε).refreshDids node).handleFor
    node true functional req = r' at *
  have hreset : r'.1.server.resetReq = r.1.server.resetReq :=
    (congrArg (·.resetReq) halike.server).symm
  have hremote : r'.1.remote = r.1.remote := halike.remote.symm
  refine ⟨?_, ?_⟩
  · rw [hreset, hremote]
    exact halike.remote_moved _
  · rw [hreset, hreply]

theorem settled_serveRemote (hc : Settled c) (node : Node ε) (req : List UInt8)
    (functional : Bool) : Settled (c.serveRemote node req functional).1 := by
  simp only [Connection.serveRemote]
  split
  · exact ⟨hc.reset, hc.locked⟩
  rename_i hserves
  have hcalm : c.server.resetReq = 0 := by
    by_contra hno
    exact hserves (.inr hno)
  have hs := settled_handleFor (c := { c with remote := c.remote.begin }) (hc.free hcalm) node true
    functional req
  exact ⟨hs.reset, hs.locked⟩

theorem Alike.pump (h : Alike t c c') (hc : Settled c) (hc' : Settled c') (node : Node ε)
    (now : UInt64) (channel : List Bool) :
    Alike t (c.pump node now channel).1 (c'.pump node now channel).1 ∧
      (c.pump node now channel).2 = (c'.pump node now channel).2 := by
  have hmoved := h.link_moved (pumpLink c.link node.txId now channel).2.1
  have hlost : Alike t
      ({ c with link := (pumpLink c.link node.txId now channel).2.1 } : Connection ε).answerLost
      ({ c' with link := (pumpLink c.link node.txId now channel).2.1 } : Connection ε).answerLost := by
    by_cases hr : c.remote.reset = true
    · have hr' : c'.remote.reset = true := h.remote ▸ hr
      simp only [Connection.answerLost, if_pos hr, if_pos hr']
      exact hmoved
    · have hr' : ¬c'.remote.reset = true := h.remote ▸ hr
      simp only [Connection.answerLost, if_neg hr, if_neg hr']
      exact hmoved.cancelReset ⟨hc.reset, hc.locked⟩ ⟨hc'.reset, hc'.locked⟩
  simp only [Connection.pump, ← h.link, and_true]
  split
  · exact hmoved
  · exact hlost

theorem settled_pump (hc : Settled c) (node : Node ε) (now : UInt64) (channel : List Bool) :
    Settled (c.pump node now channel).1 := by
  simp only [Connection.pump, Connection.answerLost]
  split
  · exact ⟨hc.reset, hc.locked⟩
  split
  · exact ⟨hc.reset, hc.locked⟩
  · exact settled_of_free (cancelReset_kept _).1

/-- A call that serves nothing of the other side. -/
theorem alike_step (h : Alike t c c') (hc : Settled c) (hc' : Settled c') (e : Event)
    (hside : ∀ u ∈ (step node c e).2.served, u.1 = t) :
    Alike t (step node c e).1 (step node c' e).1 ∧ (step node c e).2 = (step node c' e).2 := by
  cases e with
  | housekeep now => exact h.housekeep node now
  | frame now f => exact h.onFrame hc hc' node now f hside
  | serve => exact h.serve hc hc' node hside
  | pump now channel => exact h.pump hc hc' node now channel
  | remoteRequest req functional => exact h.serveRemote hc hc' node req functional hside
  | remoteSent =>
    simp only [step, Connection.remoteSent, ← h.remote, and_true]
    exact h.remote_moved _
  | remoteDropped =>
    simp only [step, remoteDropped_eq, and_true]
    exact ((h.dropReset hc hc').dropSession node).cut

theorem settled_step (hc : Settled c) (e : Event) : Settled (step node c e).1 := by
  cases e with
  | housekeep now => exact settled_housekeep hc node now
  | frame now f => exact settled_onFrame hc node now f
  | serve => exact settled_serve hc node
  | pump now channel => exact settled_pump hc node now channel
  | remoteRequest req functional => exact settled_serveRemote hc node req functional
  | remoteSent => exact ⟨hc.reset, hc.locked⟩
  | remoteDropped =>
    simp only [step, remoteDropped_eq]
    exact settled_cut (settled_dropSession (settled_dropReset hc) node)

/-! ## Whose an unlock is -/

/-- The sessions that only a timeout or the network's end can have entered, each once, since the
unlock was held back. -/
def Moved (c : Connection ε) : Prop :=
  c.server.session = Uds.sessionDefault ∧
    (c.server.sessionEpoch = c.heldBackEpoch + 1 ∨
      c.server.sessionEpoch = c.heldBackEpoch + 2 ∧ c.remoteOwns = false)

/-- What a side sees is its own: the unlock, what a reset hides of it, and its exchange. -/
structure Holds (U : Bool → UInt8 → Prop) (D : Bool → UInt8 → Vector UInt8 seedLen → Prop)
    (c : Connection ε) : Prop where
  unlock : ∀ t, own t c ≠ 0 → U t (own t c)
  hidden : ∀ t, hiddenOf t c ≠ 0 →
    (c.heldBackEpoch = c.server.sessionEpoch ∧ U t (hiddenOf t c)) ∨ Moved c
  exchange : ∀ t, c.saLevel t ≠ 0 → D t (c.saLevel t) (c.saSeed t)

/-- No unlock is anyone's. -/
def nobody : Bool → UInt8 → Prop := fun _ _ => False

section Ownership
variable {U U' : Bool → UInt8 → Prop} {D D' : Bool → UInt8 → Vector UInt8 seedLen → Prop}
  {c'' : Connection ε}

theorem Holds.mono (h : Holds U D c) (hU : ∀ t level, U t level → U' t level)
    (hD : ∀ t level seed, D t level seed → D' t level seed) : Holds U' D' c where
  unlock t hne := hU _ _ (h.unlock t hne)
  hidden t hne := (h.hidden t hne).imp (fun hx => ⟨hx.1, hU _ _ hx.2⟩) id
  exchange t hne := hD _ _ _ (h.exchange t hne)

/-- Whatever is anyone's stays so, and nothing unlocked outlives the entry of a session. -/
structure Keeps (D : Bool → UInt8 → Vector UInt8 seedLen → Prop) (c c' : Connection ε) : Prop where
  holds : ∀ U, Holds U D c → Holds U D c'
  entered : ∀ U, Holds U D c → c'.server.sessionEpoch ≠ c.server.sessionEpoch → Holds nobody D c'

theorem Keeps.trans (h : Keeps D c c') (h' : Keeps D c' c'') : Keeps D c c'' where
  holds U hU := h'.holds U (h.holds U hU)
  entered U hU hne := by
    by_cases heq : c'.server.sessionEpoch = c.server.sessionEpoch
    · exact h'.entered U (h.holds U hU) (by rw [heq]; exact hne)
    · exact h'.holds nobody (h.entered U hU heq)

theorem Keeps.of_same (hown : ∀ t, own t c' = own t c) (hhidden : ∀ t, hiddenOf t c' = hiddenOf t c)
    (hback : c'.heldBackEpoch = c.heldBackEpoch)
    (hepoch : c'.server.sessionEpoch = c.server.sessionEpoch)
    (hsession : c'.server.session = c.server.session) (howns : c'.remoteOwns = c.remoteOwns)
    (hlevel : c'.saLevel = c.saLevel) (hseed : c'.saSeed = c.saSeed) : Keeps D c c' where
  holds U h := by
    refine ⟨fun t hne => ?_, fun t hne => ?_, fun t hne => ?_⟩
    · rw [hown] at hne ⊢
      exact h.unlock t hne
    · rw [hhidden] at hne ⊢
      rw [hback, hepoch]
      refine (h.hidden t hne).imp id fun hm => ?_
      simpa only [Moved, hback, hepoch, hsession, howns] using hm
    · rw [hlevel] at hne ⊢
      rw [hseed]
      exact h.exchange t hne
  entered U _ hne := absurd hepoch hne

theorem moved_ne (n : UInt32) : n + 1 ≠ n ∧ n + 2 ≠ n := by
  constructor <;>
  · intro heq
    have hnat := congrArg UInt32.toNat heq
    have hlt := n.toNat_lt
    rw [UInt32.toNat_add] at hnat
    simp only [UInt32.reduceToNat] at hnat
    omega

/-- A cancelled reset gives back within the session only. -/
theorem keeps_cancelReset (hc : Settled c) : Keeps D c c.cancelReset := by
  obtain ⟨hfree, -, -, hlevel, hseed, -, hmask⟩ := cancelReset_kept c
  have hepoch : c.cancelReset.server.sessionEpoch = c.server.sessionEpoch :=
    congrArg (·.sessionEpoch) (hmask 0)
  refine ⟨fun U h => ⟨fun t hne => ?_, fun t hne => absurd (hiddenOf_free hfree t) hne,
    fun t hne => ?_⟩, fun U _ hne => absurd hepoch hne⟩
  · rw [own_cancelReset hc] at hne ⊢
    split at hne
    · rename_i hback
      rw [if_pos hback]
      rcases h.hidden t hback.1 with hown | ⟨-, hone | ⟨htwo, -⟩⟩
      · exact hown.2
      · rw [hback.2] at hone
        exact absurd hone.symm (moved_ne _).1
      · rw [hback.2] at htwo
        exact absurd htwo.symm (moved_ne _).2
    · rename_i hback
      rw [if_neg hback]
      exact h.unlock t hne
  · rw [hlevel] at hne ⊢
    rw [hseed]
    exact h.exchange t hne

theorem keeps_sendAnswer (hc : Settled c) (n : ℕ) : Keeps D c (c.sendAnswer n) := by
  have hmoved (l : Isotp.Link) : Keeps D c { c with link := l } :=
    .of_same (fun _ => rfl) (fun _ => rfl) rfl rfl rfl rfl rfl rfl
  simp only [Connection.sendAnswer]
  split
  · split
    · exact (hmoved _).trans (keeps_cancelReset ⟨hc.reset, hc.locked⟩)
    · exact hmoved _
  · exact .of_same (fun _ => rfl) (fun _ => rfl) rfl rfl rfl rfl rfl rfl

theorem own_locked (hz : c.server.unlocked = 0) (t : Bool) : own t c = 0 := by
  simp only [own, hz, ite_self]

theorem keeps_applyAnsweredReset (node : Node ε) (c : Connection ε) :
    Keeps D c (c.applyAnsweredReset node).1 := by
  simp only [Connection.applyAnsweredReset]
  split
  · have hlocked := (c.server.relocked_resetState (h := node.hooks)).2.1
    have hholds (U U' : Bool → UInt8 → Prop) (h : Holds U D c) : Holds U' D
        { c with server := c.server.resetState node.hooks, heldBack := 0 } :=
      ⟨fun t hne => absurd (own_locked hlocked t) hne,
        fun t hne => absurd (hiddenOf_free rfl t) hne, h.exchange⟩
    exact ⟨fun U h => hholds U U h, fun U h _ => hholds U nobody h⟩
  · exact .of_same (fun _ => rfl) (fun _ => rfl) rfl rfl rfl rfl rfl rfl

/-- The default session is entered while an unlock is held back: once by a timeout, from another
session, and once by the end of the network's own. -/
theorem keeps_entry {s : Server ε} (hlocked : s.unlocked = 0)
    (hsession : s.session = Uds.sessionDefault)
    (hepoch : s.sessionEpoch = c.server.sessionEpoch + 1) {owns : Bool}
    (hfrom : c.server.session ≠ Uds.sessionDefault ∨ c.remoteOwns = true ∧ owns = false) :
    Keeps D c { c with server := s, remoteOwns := owns } := by
  have hholds (U U' : Bool → UInt8 → Prop) (h : Holds U D c) : Holds U' D
      { c with server := s, remoteOwns := owns } := by
    refine ⟨fun t hne => absurd (own_locked hlocked t) hne, fun t hne => .inr ⟨hsession, ?_⟩,
      h.exchange⟩
    show s.sessionEpoch = c.heldBackEpoch + 1 ∨ s.sessionEpoch = c.heldBackEpoch + 2 ∧ owns = false
    rw [hepoch]
    rcases h.hidden t hne with ⟨hback, -⟩ | ⟨hdefault, hone | ⟨-, hnot⟩⟩
    · exact .inl (by rw [hback])
    · obtain ⟨-, howns⟩ := hfrom.resolve_left fun hx => hx hdefault
      refine .inr ⟨?_, howns⟩
      rw [hone, UInt32.add_assoc]
      rfl
    · obtain ⟨howns, -⟩ := hfrom.resolve_left fun hx => hx hdefault
      rw [howns] at hnot
      cases hnot
  exact ⟨fun U h => hholds U U h, fun U h _ => hholds U nobody h⟩

theorem keeps_tick (node : Node ε) (c : Connection ε) (now : ℕ) :
    Keeps D c { c with server := c.server.tick node.hooks node.config now } := by
  have hstart : (c.server.startDelay node.config now).session = c.server.session ∧
      (c.server.startDelay node.config now).sessionEpoch = c.server.sessionEpoch := by
    simp only [Server.startDelay]
    split <;> exact ⟨rfl, rfl⟩
  simp only [Server.tick]
  split
  · rename_i hexpired
    have hentry := Server.relocked_enterSession (h := node.hooks)
      (c.server.startDelay node.config now) Uds.sessionDefault
    refine keeps_entry hentry.2.1 ?_ (by rw [hentry.2.2, hstart.2]) (.inl ?_)
    · simp only [Server.enterSession, Server.restoreDtcSetting, if_true]
      split <;> rfl
    · rw [← hstart.1]
      intro hdefault
      simp [Server.expired, hdefault] at hexpired
  · refine .of_same (fun t => ?_) (fun _ => rfl) rfl hstart.2 hstart.1 rfl rfl rfl
    simp only [own, unlocked_startDelay]

theorem keeps_housekeep (node : Node ε) (c : Connection ε) (now : UInt64) :
    Keeps D c (c.housekeep node now).1 := by
  have hticked : Keeps D c { c with link := c.link.tick now } :=
    .of_same (fun _ => rfl) (fun _ => rfl) rfl rfl rfl rfl rfl rfl
  have happlied := hticked.trans (keeps_applyAnsweredReset node _)
  simp only [Connection.housekeep]
  split
  · have hheld (d : Connection ε) : Keeps D d { d with server := d.server.holdS3 now.toNat } :=
      .of_same (fun _ => rfl) (fun _ => rfl) rfl rfl rfl rfl rfl rfl
    exact (happlied.trans (hheld _)).trans (keeps_tick node _ now.toNat)
  · exact happlied.trans (keeps_tick node _ now.toNat)

theorem keeps_pump (hc : Settled c) (node : Node ε) (now : UInt64) (channel : List Bool) :
    Keeps D c (c.pump node now channel).1 := by
  have hmoved (l : Isotp.Link) : Keeps D c { c with link := l } :=
    .of_same (fun _ => rfl) (fun _ => rfl) rfl rfl rfl rfl rfl rfl
  simp only [Connection.pump, Connection.answerLost]
  split
  · exact hmoved _
  split
  · exact hmoved _
  · exact (hmoved _).trans (keeps_cancelReset ⟨hc.reset, hc.locked⟩)

/-- The end of the network's connection, up to what it takes of the unlocks. -/
theorem keeps_dropped (hc : Settled c) (node : Node ε) :
    Keeps D c { dropSession node (dropReset c) with remoteOwns := false } := by
  have hreset : Keeps D c (dropReset c) := by
    have hremote : Keeps D c { c with remote := c.remote.dropped.2 } :=
      .of_same (fun _ => rfl) (fun _ => rfl) rfl rfl rfl rfl rfl rfl
    simp only [dropReset]
    split
    · exact hremote.trans (keeps_cancelReset ⟨hc.reset, hc.locked⟩)
    · exact hremote
  refine hreset.trans ?_
  generalize dropReset c = d
  by_cases howns : d.remoteOwns = true
  · simp only [dropSession, if_pos howns]
    have hentry := Server.relocked_enterSession (h := node.hooks) d.server Uds.sessionDefault
    refine keeps_entry hentry.2.1 ?_ hentry.2.2 (.inr ⟨howns, rfl⟩)
    simp only [Server.enterSession, Server.restoreDtcSetting, if_true]
    split <;> rfl
  · simp only [dropSession, if_neg howns]
    have hfalse : d.remoteOwns = false := by simpa using howns
    exact .of_same (fun _ => rfl) (fun _ => rfl) rfl rfl rfl hfalse.symm rfl rfl

/-- It takes what the network opened. -/
theorem holds_cut (h : Holds U D { c with remoteOwns := false }) :
    Holds (fun t level => t = false ∧ U t level) (fun t level seed => t = false ∧ D t level seed)
      (cut c) := by
  have hepoch : (cut c).server.sessionEpoch = c.server.sessionEpoch ∧
      (cut c).server.session = c.server.session := by
    simp only [cut]
    split <;> exact ⟨rfl, rfl⟩
  refine ⟨fun t hne => ?_, fun t hne => ?_, fun t hne => ?_⟩
  · rw [own_cut] at hne ⊢
    cases t with
    | true => exact absurd rfl hne
    | false => exact ⟨rfl, h.unlock false hne⟩
  · rw [hiddenOf_cut] at hne ⊢
    cases t with
    | true => exact absurd rfl hne
    | false =>
      rcases h.hidden false hne with ⟨hback, hown⟩ | hm
      · exact .inl ⟨hback.trans hepoch.1.symm, rfl, hown⟩
      · right
        simp only [Moved, hepoch.1, hepoch.2]
        exact hm
  · cases t with
    | true => exact absurd rfl hne
    | false => exact ⟨rfl, h.exchange false hne⟩

/-! ## Requests, and whose they are -/

/-- What a request of a side did: its key was right, or it drew a seed. -/
def Opens (node : Node ε) (c : Connection ε) (t : Bool) (req : List UInt8) (level : UInt8) : Prop :=
  (met node t c).saLevel = level ∧
    Server.RightKey node.hooks (met node t c) level (met node t c).saSeed req

theorem moves_handled (node : Node ε) (c : Connection ε) (t functional : Bool) (req : List UInt8) :
    Server.Moves node.hooks (met node t c) req (handled node t functional req c).1
      (handled node t functional req c).2 := by
  simp only [handled]
  split
  · exact Server.moves_handleFunctional _ req
  · exact Server.moves_dispatch _ req

theorem met_kept (node : Node ε) (t : Bool) (c : Connection ε) :
    (met node t c).unlocked = own t c ∧
      (met node t c).sessionEpoch = c.server.sessionEpoch ∧ (met node t c).saSeed = c.saSeed t ∧
      (met node t c).session = c.server.session ∧
      ((met node t c).saLevel = 0 ∨ (met node t c).saLevel = c.saLevel t) := by
  rw [met_eq]
  refine ⟨rfl, rfl, rfl, rfl, ?_⟩
  dsimp only
  split
  · exact .inr rfl
  · exact .inl rfl

theorem held_eq (node : Node ε) (t : Bool) (c : Connection ε) :
    ((c.refreshDids node).enter t).2.2 = own (!t) c := by
  simp only [Connection.enter, Connection.refreshDids, own]
  cases t <;> grind

/-- What the other side sees again is what was hidden from it, in the same session. -/
theorem own_leave_other (c : Connection ε) (before : UInt32) (held : UInt8) (t : Bool)
    (hne : own (!t) (c.leave before held t) ≠ 0) :
    own (!t) (c.leave before held t) = held ∧ c.server.sessionEpoch = before := by
  simp only [Connection.leave, own] at hne ⊢
  cases t <;> grind

theorem hiddenOf_leave_other (c : Connection ε) (before : UInt32) (held : UInt8) (t : Bool)
    (hc : c.heldBack = 0) (hne : hiddenOf (!t) (c.leave before held t) ≠ 0) :
    hiddenOf (!t) (c.leave before held t) = held ∧
      (c.leave before held t).heldBackEpoch = c.server.sessionEpoch ∧
      c.server.sessionEpoch = before := by
  simp only [Connection.leave, hiddenOf] at hne ⊢
  cases t <;> grind

theorem other_of_ne {t t' : Bool} (hne : t' ≠ t) : t' = !t := by
  cases t <;> cases t' <;> simp_all

/-- A request adds what it opens to what its side holds. -/
theorem holds_handleFor (h : Holds U D c) (hc : c.heldBack = 0) (node : Node ε)
    (t functional : Bool) (req : List UInt8) :
    Holds (fun t' level => U t' level ∨ t' = t ∧ Opens node c t req level)
        (fun t' level seed => D t' level seed ∨ t' = t ∧
          Server.Seeded node.hooks (met node t c) level seed (handled node t functional req c).2)
        ((c.refreshDids node).handleFor node t functional req).1 ∧
      (((c.refreshDids node).handleFor node t functional req).1.server.sessionEpoch ≠
          c.server.sessionEpoch →
        Holds nobody (fun t' level seed => D t' level seed ∨ t' = t ∧
            Server.Seeded node.hooks (met node t c) level seed (handled node t functional req c).2)
          ((c.refreshDids node).handleFor node t functional req).1) := by
  obtain ⟨hshown, hentered, hseed, -, hloaded⟩ := met_kept node t c
  have hmoves := moves_handled node c t functional req
  rw [handleFor_eq]
  obtain ⟨-, -, hlevel, hseeds, -, hmask⟩ := leave_kept (within node t functional req c)
    c.server.sessionEpoch ((c.refreshDids node).enter t).2.2 t
  have hepoch : ((within node t functional req c).leave c.server.sessionEpoch
      ((c.refreshDids node).enter t).2.2 t).server.sessionEpoch =
      (handled node t functional req c).1.sessionEpoch := congrArg (·.sessionEpoch) (hmask 0)
  have hown : own t ((within node t functional req c).leave c.server.sessionEpoch
      ((c.refreshDids node).enter t).2.2 t) = (handled node t functional req c).1.unlocked :=
    own_leave _ _ _ _ (enter_held c node)
  have hother := own_leave_other (within node t functional req c) c.server.sessionEpoch
    ((c.refreshDids node).enter t).2.2 t
  have hback := hiddenOf_leave_other (within node t functional req c) c.server.sessionEpoch
    ((c.refreshDids node).enter t).2.2 t hc
  have hfree := hiddenOf_leave (within node t functional req c) c.server.sessionEpoch
    ((c.refreshDids node).enter t).2.2 t hc
  rw [held_eq] at *
  have hafter : (within node t functional req c).server.sessionEpoch =
      (handled node t functional req c).1.sessionEpoch := rfl
  -- the exchange of the side is its old one, or the seed that this request drew
  have hexchange : ∀ t', ((within node t functional req c).leave c.server.sessionEpoch
      (own (!t) c) t).saLevel t' ≠ 0 → D t' (((within node t functional req c).leave
        c.server.sessionEpoch (own (!t) c) t).saLevel t')
        (((within node t functional req c).leave c.server.sessionEpoch (own (!t) c) t).saSeed t') ∨
      t' = t ∧ Server.Seeded node.hooks (met node t c)
        (((within node t functional req c).leave c.server.sessionEpoch (own (!t) c) t).saLevel t')
        (((within node t functional req c).leave c.server.sessionEpoch (own (!t) c) t).saSeed t')
        (handled node t functional req c).2 := by
    intro t' hne
    rw [hlevel] at hne ⊢
    rw [hseeds]
    by_cases ht : t' = t
    · subst ht
      simp only [Function.update_self] at hne ⊢
      change (handled node t' functional req c).1.saLevel ≠ 0 at hne
      change D t' (handled node t' functional req c).1.saLevel
          (handled node t' functional req c).1.saSeed ∨ _ ∧ Server.Seeded _ _
          (handled node t' functional req c).1.saLevel (handled node t' functional req c).1.saSeed _
      cases hmoves with
      | same hl hs hu hss he =>
        have hsame : (handled node t' functional req c).1.saLevel = c.saLevel t' :=
          hl.trans (hloaded.resolve_left fun hz => hne (hl.trans hz))
        rw [hs, hseed, hsame]
        rw [hsame] at hne
        exact .inl (h.exchange t' hne)
      | void hl => exact absurd hl hne
      | seed hseeded => exact .inr ⟨trivial, hseeded⟩
      | key _ _ hl => exact absurd hl hne
      | entry hl => exact absurd hl hne
    · simp only [Function.update_of_ne ht] at hne ⊢
      exact .inl (h.exchange t' hne)
  refine ⟨⟨fun t' hne => ?_, fun t' hne => ?_, hexchange⟩, fun hne => ⟨fun t' ho => ?_,
    fun t' hh => ?_, hexchange⟩⟩
  · by_cases ht : t' = t
    · subst ht
      rw [hown] at hne ⊢
      cases hmoves with
      | same _ _ hu =>
        rw [hu, hshown] at hne ⊢
        exact .inl (h.unlock t' hne)
      | void _ hu =>
        rw [hu, hshown] at hne ⊢
        exact .inl (h.unlock t' hne)
      | seed _ hu =>
        rw [hu, hshown] at hne ⊢
        exact .inl (h.unlock t' hne)
      | key hright hasked => exact .inr ⟨rfl, hasked, hright⟩
      | entry _ hu => exact absurd hu hne
    · rw [other_of_ne ht] at hne ⊢
      have hheld := (hother hne).1
      rw [hheld] at hne ⊢
      exact .inl (h.unlock _ hne)
  · by_cases ht : t' = t
    · rw [ht] at hne
      exact absurd hfree hne
    · rw [other_of_ne ht] at hne ⊢
      obtain ⟨hheld, hat, -⟩ := hback hne
      rw [hheld] at hne ⊢
      exact .inl ⟨hat.trans (hafter.trans hepoch.symm), .inl (h.unlock _ hne)⟩
  · by_cases ht : t' = t
    · subst ht
      rw [hown] at ho
      rw [hepoch] at hne
      cases hmoves with
      | same _ _ _ _ he => exact absurd (he.trans hentered) hne
      | void _ _ _ he => exact absurd (he.trans hentered) hne
      | seed _ _ _ he => exact absurd (he.trans hentered) hne
      | key _ _ _ _ he => exact absurd (he.trans hentered) hne
      | entry _ hu => exact absurd hu ho
    · rw [other_of_ne ht] at ho
      exact absurd (hepoch.trans (hafter.symm.trans (hother ho).2)) hne
  · by_cases ht : t' = t
    · rw [ht] at hh
      exact absurd hfree hh
    · rw [other_of_ne ht] at hh
      exact absurd (hepoch.trans (hafter.symm.trans (hback hh).2.2)) hne

end Ownership

/-! ## Runs -/

def Event.drops : Event → Bool
  | .remoteDropped => true
  | _ => false

/-- The entries after the last one that `ends`. -/
def since (ends : Trace.Entry (Connection ε) Event Log → Bool)
    (hist : List (Trace.Entry (Connection ε) Event Log)) :
    List (Trace.Entry (Connection ε) Event Log) :=
  hist.foldl (fun acc x => if ends x then [] else acc ++ [x]) []

@[simp] theorem since_snoc (ends : Trace.Entry (Connection ε) Event Log → Bool)
    (hist : List (Trace.Entry (Connection ε) Event Log))
    (x : Trace.Entry (Connection ε) Event Log) :
    since ends (hist ++ [x]) = if ends x then [] else since ends hist ++ [x] := by
  simp [since, List.foldl_append]

/-- The network is gone, for what the network opened. -/
def cuts (t : Bool) (x : Trace.Entry (Connection ε) Event Log) : Bool := t && x.event.drops

/-- No unlock of the side outlives it: a session is entered, or the network is gone. -/
def ends (t : Bool) (x : Trace.Entry (Connection ε) Event Log) : Bool :=
  x.after.server.sessionEpoch != x.before.server.sessionEpoch || cuts t x

/-- The request that a call brings, and whether it is functional. -/
def requestOf (x : Trace.Entry (Connection ε) Event Log) : Bool × List UInt8 :=
  match x.event with
  | .remoteRequest req functional => (functional, req)
  | .frame _ f => (true, (f.data.drop 1).take (f.data.getD 0 0 &&& 0x0F).toNat)
  | .serve => (false, x.before.link.take.1.getD [])
  | _ => (false, [])

/-- The call serves a request of the side. -/
def Serves (t : Bool) (x : Trace.Entry (Connection ε) Event Log) : Prop :=
  ∃ n, x.label.served = some (t, n)

/-- It unlocks the level, with the right key for the seed that the side has drawn. -/
def Unlocks (node : Node ε) (t : Bool) (level : UInt8)
    (x : Trace.Entry (Connection ε) Event Log) : Prop :=
  Serves t x ∧ Opens node x.before t (requestOf x).2 level

/-- It draws a seed of the level. -/
def Draws (node : Node ε) (t : Bool) (level : UInt8) (seed : Vector UInt8 seedLen)
    (x : Trace.Entry (Connection ε) Event Log) : Prop :=
  Serves t x ∧ Server.Seeded node.hooks (met node t x.before) level seed
    (handled node t (requestOf x).1 (requestOf x).2 x.before).2

/-- An unlock that the side has earned in this session. -/
def Earned (node : Node ε) (hist : List (Trace.Entry (Connection ε) Event Log)) (t : Bool)
    (level : UInt8) : Prop := ∃ y ∈ since (ends t) hist, Unlocks node t level y

/-- A seed that the side has drawn. -/
def Drawn (node : Node ε) (hist : List (Trace.Entry (Connection ε) Event Log)) (t : Bool)
    (level : UInt8) (seed : Vector UInt8 seedLen) : Prop :=
  ∃ y ∈ since (cuts t) hist, Draws node t level seed y

/-- The side that entered the session in force. -/
def opener (hist : List (Trace.Entry (Connection ε) Event Log)) : Option Bool :=
  hist.foldl (fun o x =>
    if x.after.server.sessionEpoch ≠ x.before.server.sessionEpoch then x.label.served.map (·.1)
    else o) none

@[simp] theorem opener_snoc (hist : List (Trace.Entry (Connection ε) Event Log))
    (x : Trace.Entry (Connection ε) Event Log) : opener (hist ++ [x]) =
      if x.after.server.sessionEpoch ≠ x.before.server.sessionEpoch then x.label.served.map (·.1)
      else opener hist := by
  simp [opener, List.foldl_append]

section Steps
variable {U : Bool → UInt8 → Prop} {D : Bool → UInt8 → Vector UInt8 seedLen → Prop}

/-- What a call adds to what the sides hold: the unlock and the seed of the request it serves. -/
structure Extends (node : Node ε) (U : Bool → UInt8 → Prop)
    (D : Bool → UInt8 → Vector UInt8 seedLen → Prop)
    (x : Trace.Entry (Connection ε) Event Log) : Prop where
  holds : Holds (fun t level => U t level ∨ Unlocks node t level x)
    (fun t level seed => D t level seed ∨ Draws node t level seed x) x.after
  entered : x.after.server.sessionEpoch ≠ x.before.server.sessionEpoch →
    Holds nobody (fun t level seed => D t level seed ∨ Draws node t level seed x) x.after

theorem extends_of_keeps {x : Trace.Entry (Connection ε) Event Log} (h : Holds U D x.before)
    (hk : Keeps D x.before x.after) : Extends node U D x where
  holds := (hk.holds U h).mono (fun _ _ => .inl) fun _ _ _ => .inl
  entered hne := (hk.entered U h hne).mono (fun _ _ => id) fun _ _ _ => .inl

/-- A request of a side, and what the call does behind it. -/
theorem extends_of_request {x : Trace.Entry (Connection ε) Event Log} {t : Bool}
    (hserves : Serves t x) (hmet : met node t c = met node t x.before)
    (hepoch : c.server.sessionEpoch = x.before.server.sessionEpoch) (h : Holds U D c)
    (hfree : c.heldBack = 0) (hafter : ∀ D', Keeps D' ((c.refreshDids node).handleFor node t
      (requestOf x).1 (requestOf x).2).1 x.after) : Extends node U D x := by
  obtain ⟨hholds, hentered⟩ := holds_handleFor h hfree node t (requestOf x).1 (requestOf x).2
  have hhandled : handled node t (requestOf x).1 (requestOf x).2 c =
      handled node t (requestOf x).1 (requestOf x).2 x.before := by
    simp only [handled, hmet]
  have hopens {level : UInt8} : Opens node c t (requestOf x).2 level ↔
      Opens node x.before t (requestOf x).2 level := by
    simp only [Opens, hmet]
  have hunlocks : ∀ t' level, U t' level ∨ t' = t ∧ Opens node c t (requestOf x).2 level →
      U t' level ∨ Unlocks node t' level x := by
    rintro t' level (hu | ⟨rfl, ho⟩)
    · exact .inl hu
    · exact .inr ⟨hserves, hopens.mp ho⟩
  have hdraws : ∀ t' level seed, D t' level seed ∨ t' = t ∧ Server.Seeded node.hooks
      (met node t c) level seed (handled node t (requestOf x).1 (requestOf x).2 c).2 →
      D t' level seed ∨ Draws node t' level seed x := by
    rintro t' level seed (hd | ⟨rfl, hseeded⟩)
    · exact .inl hd
    · rw [hmet, hhandled] at hseeded
      exact .inr ⟨hserves, hseeded⟩
  refine ⟨((hafter _).holds _ hholds).mono hunlocks hdraws, fun hne => ?_⟩
  by_cases heq : ((c.refreshDids node).handleFor node t (requestOf x).1
      (requestOf x).2).1.server.sessionEpoch = c.server.sessionEpoch
  · exact ((hafter _).entered _ hholds (by rw [heq, hepoch]; exact hne)).mono (fun _ _ => id) hdraws
  · exact ((hafter _).holds _ (hentered heq)).mono (fun _ _ => id) hdraws

theorem keeps_answered (hfree : c.heldBack = 0) (node : Node ε) (functional : Bool)
    (req : List UInt8) :
    Keeps D ((c.refreshDids node).handleFor node false functional req).1
      (c.serveBus node functional req).1 := by
  have hs := settled_handleFor hfree node false functional req
  simp only [Connection.serveBus]
  generalize (c.refreshDids node).handleFor node false functional req = r at *
  have hasked : Keeps D r.1 { r.1 with remote := r.1.remote.asked false } :=
    .of_same (fun _ => rfl) (fun _ => rfl) rfl rfl rfl rfl rfl rfl
  exact hasked.trans (keeps_sendAnswer
    (c := { r.1 with remote := r.1.remote.asked false }) ⟨hs.reset, hs.locked⟩ r.2.len)

/-- Every call but the end of the network's connection. -/
theorem extends_step (h : Holds U D c) (hc : Settled c) (e : Event) (he : e.drops = false) :
    Extends node U D (Trace.entry (step node) c e) := by
  have hlink (l : Isotp.Link) : Keeps D c { c with link := l } :=
    .of_same (fun _ => rfl) (fun _ => rfl) rfl rfl rfl rfl rfl rfl
  have hremote (r : RemoteReset) : Keeps D c { c with remote := r } :=
    .of_same (fun _ => rfl) (fun _ => rfl) rfl rfl rfl rfl rfl rfl
  cases e with
  | housekeep now => exact extends_of_keeps h (keeps_housekeep node c now)
  | frame now f =>
    by_cases hext : f.ext = true
    · have hstep : step node c (.frame now f) = (c, {}) := if_pos hext
      exact extends_of_keeps h (by simpa only [Trace.entry, hstep] using hlink c.link)
    by_cases hrx : f.id = node.rxId
    · have hstep : step node c (.frame now f) =
          ({ c with link := (takeFrame c.link now f).2 }, {}) := by
        simp only [step, Connection.onFrame, if_neg hext, if_pos hrx]
      exact extends_of_keeps h (by simpa only [Trace.entry, hstep] using hlink _)
    by_cases hfun : node.functionalId ≠ 0 ∧ f.id = node.functionalId
    · have hstep : step node c (.frame now f) = c.functional node f := by
        simp only [step, Connection.onFrame, if_neg hext, if_neg hrx, if_pos hfun]
      simp only [Connection.functional] at hstep
      split at hstep
      · exact extends_of_keeps h (by simpa only [Trace.entry, hstep] using hlink c.link)
      split at hstep
      · exact extends_of_keeps h (by simpa only [Trace.entry, hstep] using hlink c.link)
      rename_i hserves
      have hcalm : c.server.resetReq = 0 := by
        by_contra hno
        exact hserves (.inr (.inr (.inr (.inr hno))))
      refine extends_of_request (t := false) ⟨_, by rw [Trace.entry_label, hstep]; rfl⟩ rfl rfl h
        (hc.free hcalm) fun D' => ?_
      rw [Trace.entry_after, hstep]
      exact (keeps_answered (hc.free hcalm) node true _).trans (keeps_applyAnsweredReset node _)
    · have hstep : step node c (.frame now f) = (c, {}) := by
        simp only [step, Connection.onFrame, if_neg hext, if_neg hrx, if_neg hfun]
      exact extends_of_keeps h (by simpa only [Trace.entry, hstep] using hlink c.link)
  | serve =>
    rcases serve_cases node c with heq | ⟨hcalm, req, hreq, heq⟩
    · have hstep : step node c .serve = ({ c with link := c.link.take.2 }, {}) := heq
      exact extends_of_keeps h (by simpa only [Trace.entry, hstep] using hlink c.link.take.2)
    · have hstep : step node c .serve = _ := heq
      have hrequest : requestOf (Trace.entry (step node) c .serve) = (false, req) := by
        simp only [requestOf, Trace.entry, hreq, Option.getD_some]
      refine extends_of_request (t := false) (c := { c with link := c.link.take.2 })
        ⟨_, by rw [Trace.entry_label, hstep]; rfl⟩ rfl rfl
        ((hlink c.link.take.2).holds U h) (hc.free hcalm) fun D' => ?_
      rw [Trace.entry_after, hstep, hrequest]
      exact keeps_answered (c := { c with link := c.link.take.2 }) (hc.free hcalm) node false req
  | pump now channel => exact extends_of_keeps h (keeps_pump hc node now channel)
  | remoteRequest req functional =>
    by_cases hserves : req.length < 1 ∨ c.server.resetReq ≠ 0
    · have hstep : step node c (.remoteRequest req functional) =
          ({ c with remote := c.remote.begin }, {}) := if_pos hserves
      exact extends_of_keeps h (by simpa only [Trace.entry, hstep] using hremote _)
    · have hstep : step node c (.remoteRequest req functional) =
          c.serveRemote node req functional := rfl
      simp only [Connection.serveRemote, if_neg hserves] at hstep
      have hcalm : c.server.resetReq = 0 := by
        by_contra hno
        exact hserves (.inr hno)
      refine extends_of_request (t := true) (c := { c with remote := c.remote.begin })
        ⟨_, by rw [Trace.entry_label, hstep]⟩ rfl rfl ((hremote _).holds U h) (hc.free hcalm)
        fun D' => ?_
      rw [Trace.entry_after, hstep]
      exact .of_same (fun _ => rfl) (fun _ => rfl) rfl rfl rfl rfl rfl rfl
  | remoteSent => exact extends_of_keeps h (hremote _)
  | remoteDropped => cases he

end Steps

/-! ## The owner of a session -/

theorem sendAnswer_kept (c : Connection ε) (n : ℕ) :
    (c.sendAnswer n).remoteOwns = c.remoteOwns ∧
      (c.sendAnswer n).server.sessionEpoch = c.server.sessionEpoch := by
  simp only [Connection.sendAnswer]
  split
  · split
    · obtain ⟨-, -, howns, -, -, -, hmask⟩ :=
        cancelReset_kept { c with link := (c.link.send (Buffer.prefixOf c.resp n)).2 }
      exact ⟨howns, congrArg (·.sessionEpoch) (hmask 0)⟩
    · exact ⟨rfl, rfl⟩
  · exact ⟨rfl, rfl⟩

theorem handleFor_kept (node : Node ε) (c : Connection ε) (t functional : Bool)
    (req : List UInt8) :
    (((c.refreshDids node).handleFor node t functional req).1.server.sessionEpoch =
          c.server.sessionEpoch ∧
        ((c.refreshDids node).handleFor node t functional req).1.remoteOwns = c.remoteOwns) ∨
      (((c.refreshDids node).handleFor node t functional req).1.server.sessionEpoch =
          c.server.sessionEpoch + 1 ∧
        ((c.refreshDids node).handleFor node t functional req).1.remoteOwns = t) := by
  obtain ⟨-, hentered, -⟩ := met_kept node t c
  rw [handleFor_eq]
  obtain ⟨-, howns, -, -, -, hmask⟩ := leave_kept (within node t functional req c)
    c.server.sessionEpoch ((c.refreshDids node).enter t).2.2 t
  have hepoch : ((within node t functional req c).leave c.server.sessionEpoch
      ((c.refreshDids node).enter t).2.2 t).server.sessionEpoch =
      (handled node t functional req c).1.sessionEpoch := congrArg (·.sessionEpoch) (hmask 0)
  have hsame (he : (handled node t functional req c).1.sessionEpoch =
      (met node t c).sessionEpoch) : ((within node t functional req c).leave c.server.sessionEpoch
        ((c.refreshDids node).enter t).2.2 t).server.sessionEpoch = c.server.sessionEpoch ∧
      ((within node t functional req c).leave c.server.sessionEpoch
        ((c.refreshDids node).enter t).2.2 t).remoteOwns = c.remoteOwns := by
    refine ⟨hepoch.trans (he.trans hentered), howns.trans (if_neg fun hne => hne ?_)⟩
    exact he.trans hentered
  cases moves_handled node c t functional req with
  | same _ _ _ _ he => exact .inl (hsame he)
  | void _ _ _ he => exact .inl (hsame he)
  | seed _ _ _ he => exact .inl (hsame he)
  | key _ _ _ _ he => exact .inl (hsame he)
  | entry _ _ he =>
    have hmoved := he.trans (congrArg (· + 1) hentered)
    refine .inr ⟨hepoch.trans hmoved, howns.trans (if_pos fun heq => ?_)⟩
    exact (moved_ne _).1 (hmoved.symm.trans heq)

/-- A request of the bus leaves the owner, or enters a session and is the owner. -/
theorem serveBus_kept (node : Node ε) (c : Connection ε) (functional : Bool) (req : List UInt8) :
    ((c.serveBus node functional req).1.server.sessionEpoch = c.server.sessionEpoch ∧
        (c.serveBus node functional req).1.remoteOwns = c.remoteOwns) ∨
      (c.serveBus node functional req).1.server.sessionEpoch = c.server.sessionEpoch + 1 := by
  have hkept := handleFor_kept node c false functional req
  simp only [Connection.serveBus]
  generalize (c.refreshDids node).handleFor node false functional req = r at *
  obtain ⟨howns, hepoch⟩ :=
    sendAnswer_kept { r.1 with remote := r.1.remote.asked false } r.2.len
  rw [howns, hepoch]
  exact hkept.imp id fun hx => hx.1

theorem applyAnsweredReset_kept (node : Node ε) (c : Connection ε) :
    (c.applyAnsweredReset node).1.remoteOwns = c.remoteOwns ∧
      ((c.applyAnsweredReset node).1.server.sessionEpoch = c.server.sessionEpoch ∨
        (c.applyAnsweredReset node).1.server.sessionEpoch = c.server.sessionEpoch + 1) := by
  simp only [Connection.applyAnsweredReset]
  split
  · exact ⟨rfl, .inr (c.server.relocked_resetState (h := node.hooks)).2.2⟩
  · exact ⟨rfl, .inl rfl⟩

/-- Within a session its owner stays; the network owns the session that its request enters. -/
theorem owner_step (c : Connection ε) (e : Event) (he : e.drops = false) :
    ((step node c e).1.server.sessionEpoch = c.server.sessionEpoch →
        (step node c e).1.remoteOwns = c.remoteOwns) ∧
      ((step node c e).1.server.sessionEpoch ≠ c.server.sessionEpoch →
        (step node c e).2.served.map (·.1) = some true → (step node c e).1.remoteOwns = true) := by
  have hbus {d : Connection ε} (hd : d.remoteOwns = c.remoteOwns)
      (hd' : d.server.sessionEpoch = c.server.sessionEpoch) (functional : Bool)
      (req : List UInt8) : (d.serveBus node functional req).1.server.sessionEpoch =
        c.server.sessionEpoch → (d.serveBus node functional req).1.remoteOwns = c.remoteOwns := by
    intro heq
    rcases serveBus_kept node d functional req with ⟨-, howns⟩ | hone
    · exact howns.trans hd
    · rw [hd'] at hone
      exact absurd (hone.symm.trans heq) (moved_ne _).1
  cases e with
  | housekeep now =>
    refine ⟨fun _ => ?_, fun _ => (by intros; contradiction)⟩
    simp only [step, Connection.housekeep]
    exact (applyAnsweredReset_kept node _).1
  | frame now f =>
    simp only [step, Connection.onFrame]
    split
    · exact ⟨fun _ => rfl, (by intros; contradiction)⟩
    split
    · exact ⟨fun _ => rfl, (by intros; contradiction)⟩
    split
    · simp only [Connection.functional]
      split
      · exact ⟨fun _ => rfl, (by intros; contradiction)⟩
      split
      · exact ⟨fun _ => rfl, (by intros; contradiction)⟩
      refine ⟨fun heq => ?_, fun _ => fun h => (by cases h)⟩
      obtain ⟨howns, hsame⟩ := applyAnsweredReset_kept node (c.serveBus node true
        ((f.data.drop 1).take (f.data.getD 0 0 &&& 0x0F).toNat)).1
      refine howns.trans (hbus rfl rfl true _ ?_)
      rcases hsame with hsame | hone
      · exact hsame.symm.trans heq
      · rcases serveBus_kept node c true
          ((f.data.drop 1).take (f.data.getD 0 0 &&& 0x0F).toNat) with hx | hx
        · exact hx.1
        · rw [hx, UInt32.add_assoc] at hone
          exact absurd (hone.symm.trans heq) (moved_ne _).2
    · exact ⟨fun _ => rfl, (by intros; contradiction)⟩
  | serve =>
    rcases serve_cases node c with heq | ⟨-, req, -, heq⟩
    · simp only [step, heq]
      exact ⟨fun _ => trivial, (by intros; contradiction)⟩
    · simp only [step, heq]
      exact ⟨hbus (d := { c with link := c.link.take.2 }) rfl rfl false req, fun _ => fun h => (by cases h)⟩
  | pump now channel =>
    refine ⟨fun _ => ?_, fun _ => (by intros; contradiction)⟩
    simp only [step, Connection.pump, Connection.answerLost]
    split
    · rfl
    split
    · rfl
    · exact (cancelReset_kept _).2.2.1
  | remoteRequest req functional =>
    simp only [step, Connection.serveRemote]
    split
    · exact ⟨fun _ => rfl, (by intros; contradiction)⟩
    · rcases handleFor_kept node { c with remote := c.remote.begin } true functional req with
        ⟨hsame, howns⟩ | ⟨hone, howns⟩
      · exact ⟨fun _ => howns, fun hne => absurd hsame hne⟩
      · exact ⟨fun heq => absurd (hone.symm.trans heq) (moved_ne _).1, fun _ _ => howns⟩
  | remoteSent => exact ⟨fun _ => rfl, (by intros; contradiction)⟩
  | remoteDropped => cases he

/-- What holds after a run: each side holds what it has earned, and the network's session is its. -/
structure Owns (node : Node ε) (c : Connection ε)
    (hist : List (Trace.Entry (Connection ε) Event Log)) : Prop where
  holds : Holds (Earned node hist) (Drawn node hist) c
  settled : Settled c
  opened : opener hist = some true → c.remoteOwns = true

theorem dropReset_kept (c : Connection ε) : (dropReset c).remoteOwns = c.remoteOwns ∧
    (dropReset c).server.sessionEpoch = c.server.sessionEpoch := by
  simp only [dropReset]
  split
  · obtain ⟨-, -, howns, -, -, -, hmask⟩ := cancelReset_kept { c with remote := c.remote.dropped.2 }
    exact ⟨howns, congrArg (·.sessionEpoch) (hmask 0)⟩
  · exact ⟨rfl, rfl⟩

/-- The session of the network ends with its connection. -/
theorem remoteDropped_owner (node : Node ε) (c : Connection ε) (howns : c.remoteOwns = true) :
    (c.remoteDropped node).server.session = Uds.sessionDefault ∧
      (c.remoteDropped node).server.unlocked = 0 ∧
      (c.remoteDropped node).server.sessionEpoch = c.server.sessionEpoch + 1 := by
  have hcut (d : Connection ε) (hz : d.server.unlocked = 0) : (cut d).server = d.server := by
    simp only [cut]
    split
    · rw [← hz]
    · rfl
  obtain ⟨hreset, hepoch⟩ := dropReset_kept c
  have hentry := Server.relocked_enterSession (h := node.hooks) (dropReset c).server
    Uds.sessionDefault
  have hsession : dropSession node (dropReset c) = { dropReset c with
      server := (dropReset c).server.enterSession node.hooks Uds.sessionDefault } :=
    if_pos (hreset.trans howns)
  rw [remoteDropped_eq, hsession, hcut _ hentry.2.1]
  refine ⟨?_, hentry.2.1, hentry.2.2.trans (congrArg (· + 1) hepoch)⟩
  simp only [Server.enterSession, Server.restoreDtcSetting, if_true]
  split <;> rfl

theorem owns_dropped {hist : List (Trace.Entry (Connection ε) Event Log)} (h : Owns node c hist) :
    Owns node (step node c .remoteDropped).1
      (hist ++ [Trace.entry (step node) c .remoteDropped]) := by
  have hstep : step node c .remoteDropped = (c.remoteDropped node, {}) := rfl
  have hepoch : (c.remoteDropped node).server.sessionEpoch =
      (dropSession node (dropReset c)).server.sessionEpoch := by
    rw [remoteDropped_eq]
    simp only [cut]
    split <;> rfl
  have hkeeps := keeps_dropped (D := Drawn node hist) h.settled node
  refine ⟨?_, settled_step h.settled _, ?_⟩
  · have hdrawn (t : Bool) (level : UInt8) (seed : Vector UInt8 seedLen)
        (hd : t = false ∧ Drawn node hist t level seed) :
        Drawn node (hist ++ [Trace.entry (step node) c .remoteDropped]) t level seed := by
      obtain ⟨rfl, y, hy, hdraws⟩ := hd
      refine ⟨y, ?_, hdraws⟩
      rw [since_snoc, if_neg (by simp [cuts])]
      exact List.mem_append_left _ hy
    rw [hstep, remoteDropped_eq]
    by_cases heq : (dropSession node (dropReset c)).server.sessionEpoch = c.server.sessionEpoch
    · refine (holds_cut (hkeeps.holds _ h.holds)).mono (fun t level hu => ?_) hdrawn
      obtain ⟨rfl, y, hy, hunlocks⟩ := hu
      refine ⟨y, ?_, hunlocks⟩
      rw [since_snoc, if_neg]
      · exact List.mem_append_left _ hy
      · simp [ends, cuts, hstep, hepoch, heq]
    · exact (holds_cut (hkeeps.entered _ h.holds heq)).mono (fun t level hu => hu.2.elim) hdrawn
  · rw [opener_snoc]
    split
    · intro h
      cases h
    · rename_i hsame
      intro hopened
      obtain ⟨-, -, hmoved⟩ := remoteDropped_owner node c (h.opened hopened)
      refine absurd ?_ hsame
      rw [Trace.entry_after, Trace.entry_before, hstep, hmoved]
      exact (moved_ne _).1

theorem owns_step {hist : List (Trace.Entry (Connection ε) Event Log)} (h : Owns node c hist)
    (e : Event) : Owns node (step node c e).1 (hist ++ [Trace.entry (step node) c e]) := by
  by_cases he : e.drops = true
  · cases e with
    | remoteDropped => exact owns_dropped h
    | _ => cases he
  have he : e.drops = false := by simpa using he
  have hextends : Extends node (Earned node hist) (Drawn node hist) _ :=
    extends_step h.holds h.settled e he
  obtain ⟨hholds, hentered⟩ := hextends
  have hdrawn (t : Bool) (level : UInt8) (seed : Vector UInt8 seedLen)
      (hd : Drawn node hist t level seed ∨ Draws node t level seed (Trace.entry (step node) c e)) :
      Drawn node (hist ++ [Trace.entry (step node) c e]) t level seed := by
    have hcuts : ¬cuts t (Trace.entry (step node) c e) = true := by simp [cuts, he]
    simp only [Drawn, since_snoc, if_neg hcuts]
    rcases hd with ⟨y, hy, hdraws⟩ | hdraws
    · exact ⟨y, List.mem_append_left _ hy, hdraws⟩
    · exact ⟨_, List.mem_append_right _ (List.mem_singleton_self _), hdraws⟩
  obtain ⟨hstays, henters⟩ : (_ → _) ∧ (_ → _ → (step node c e).1.remoteOwns = true) :=
    owner_step c e he
  refine ⟨?_, settled_step h.settled e, ?_⟩
  · by_cases heq : (step node c e).1.server.sessionEpoch = c.server.sessionEpoch
    · refine hholds.mono (fun t level hu => ?_) hdrawn
      have hends : ¬ends t (Trace.entry (step node) c e) = true := by simp [ends, cuts, he, heq]
      simp only [Earned, since_snoc, if_neg hends]
      rcases hu with ⟨y, hy, hunlocks⟩ | hunlocks
      · exact ⟨y, List.mem_append_left _ hy, hunlocks⟩
      · exact ⟨_, List.mem_append_right _ (List.mem_singleton_self _), hunlocks⟩
    · exact (hentered heq).mono (fun _ _ => False.elim) hdrawn
  · rw [opener_snoc]
    split
    · exact henters ‹_›
    · rename_i hsame
      intro hopened
      exact (hstays (not_not.mp hsame)).trans (h.opened hopened)

/-- What holds of each call of a run. -/
structure Isolated (node : Node ε) (hist : List (Trace.Entry (Connection ε) Event Log))
    (x : Trace.Entry (Connection ε) Event Log) : Prop where
  /-- A request meets an unlock that its own side has earned, in this session. -/
  unlock : ∀ t, Serves t x → (met node t x.before).unlocked ≠ 0 →
    Earned node hist t (met node t x.before).unlocked
  /-- And the exchange of its own side. -/
  exchange : ∀ t, Serves t x → (met node t x.before).saLevel ≠ 0 →
    Drawn node hist t (met node t x.before).saLevel (met node t x.before).saSeed
  /-- Hidden or not, an unlock is seen by the side that earned it, within its session. -/
  shown : ∀ t, own t x.after ≠ 0 → Earned node (hist ++ [x]) t (own t x.after)
  /-- The network takes along its unlock, hidden or not, and its exchange, -/
  dropped : x.event = .remoteDropped →
    own true x.after = 0 ∧ hiddenOf true x.after = 0 ∧ x.after.saLevel true = 0
  /-- the session that it entered, -/
  closed : x.event = .remoteDropped → opener hist = some true →
    x.after.server.session = Uds.sessionDefault ∧ x.after.server.unlocked = 0
  /-- and its reset that was not acknowledged. -/
  abandoned : x.event = .remoteDropped → x.before.remote.reset = true →
    x.before.remote.acked = false → x.after.server.resetReq = 0

theorem isolated_step {hist : List (Trace.Entry (Connection ε) Event Log)} (h : Owns node c hist)
    (e : Event) : Isolated node hist (Trace.entry (step node) c e) where
  unlock t _ hne := by
    rw [Trace.entry_before, (met_kept node t c).1] at hne ⊢
    exact h.holds.unlock t hne
  exchange t _ hne := by
    rw [Trace.entry_before] at hne ⊢
    obtain ⟨-, -, hseed, -, hloaded⟩ := met_kept node t c
    have hsame := hloaded.resolve_left hne
    rw [hsame] at hne ⊢
    rw [hseed]
    exact h.holds.exchange t hne
  shown := (owns_step h e).holds.unlock
  dropped he := by
    rw [Trace.entry_event] at he
    subst he
    have hstep : (step node c .remoteDropped).1 = cut (dropSession node (dropReset c)) :=
      remoteDropped_eq node c
    rw [Trace.entry_after, hstep, own_cut, hiddenOf_cut]
    exact ⟨rfl, rfl, rfl⟩
  closed he hopened := by
    rw [Trace.entry_event] at he
    subst he
    obtain ⟨hsession, hlocked, -⟩ := remoteDropped_owner node c (h.opened hopened)
    exact ⟨hsession, hlocked⟩
  abandoned he hreset hacked := by
    rw [Trace.entry_event] at he
    subst he
    obtain ⟨-, -, hreq⟩ := c.remoteDropped_spec node
    rw [Trace.entry_before] at hreset hacked
    rw [if_pos (by simp [RemoteReset.dropped, hreset, hacked])] at hreq
    exact hreq

theorem owns_init (node : Node ε) (ctx : ε) (dids : List Did) (bs stmin : UInt8) :
    Owns node (.init node ctx dids bs stmin) [] where
  holds :=
    ⟨fun t hne => absurd (own_locked (Server.relocked_resetState _).2.1 t) hne,
      fun t hne => absurd (hiddenOf_free rfl t) hne, fun _ hne => absurd rfl hne⟩
  settled := settled_of_free rfl
  opened := nofun

/-- What a side sees of a call that serves it: the outcome, and the answer with its bytes. -/
def seen (node : Node ε) (t : Bool) (x : Trace.Entry (Connection ε) Event Log) : Log × Reply :=
  (x.label, (handled node t (requestOf x).1 (requestOf x).2 x.before).2)

theorem seen_alike (h : Alike t c c') (hc : Settled c) (hc' : Settled c') (es : List Event)
    (hside : ∀ x ∈ Trace.history (step node) c es, ∀ u ∈ x.label.served, u.1 = t) :
    (Trace.history (step node) c es).map (seen node t) =
        (Trace.history (step node) c' es).map (seen node t) ∧
      Alike t (Trace.final (step node) c es) (Trace.final (step node) c' es) := by
  induction es using List.reverseRecOn with
  | nil => exact ⟨rfl, h⟩
  | append_singleton es e ih =>
    rw [Trace.history_snoc] at hside
    obtain ⟨hsame, halike⟩ := ih fun x hx => hside x (List.mem_append_left _ hx)
    have hs : Settled (Trace.final (step node) c es) :=
      Trace.final_invariant Settled hc (fun _ e hd => settled_step hd e) es
    have hs' : Settled (Trace.final (step node) c' es) :=
      Trace.final_invariant Settled hc' (fun _ e hd => settled_step hd e) es
    obtain ⟨hnext, hlabel⟩ := alike_step halike hs hs' e
      (hside _ (List.mem_append_right _ (List.mem_singleton_self _)))
    have hrequest : requestOf (Trace.entry (step node) (Trace.final (step node) c es) e) =
        requestOf (Trace.entry (step node) (Trace.final (step node) c' es) e) := by
      cases e <;> simp only [requestOf, Trace.entry, halike.link]
    have hseen : seen node t (Trace.entry (step node) (Trace.final (step node) c es) e) =
        seen node t (Trace.entry (step node) (Trace.final (step node) c' es) e) := by
      simp only [seen, hrequest, Trace.entry_label, Trace.entry_before, hlabel,
        halike.handled node]
    rw [Trace.history_snoc, Trace.history_snoc, Trace.final_snoc, Trace.final_snoc, List.map_append,
      List.map_append, hsame, List.map_singleton, List.map_singleton, hseen]
    exact ⟨rfl, hnext⟩

/-- In every run of a connection, in any order of its calls, a request meets the unlock and the
exchange of its own side only, an unlock is seen within the session that it was earned in, by the
side that earned it, and the end of the network's connection ends what the network opened. And for
every pair of runs: after any two that are alike for a side, and after any run with and without what
the other side keeps, whatever follows without a request of the other side has the same outcome,
down to the bytes of the answers. -/
theorem transports_isolated (node : Node ε) (ctx : ε) (dids : List Did) (bs stmin : UInt8)
    (es : List Event) :
    Trace.Along (Isolated node) (Trace.history (step node) (.init node ctx dids bs stmin) es) ∧
    (∀ t es₂ es', Alike t (Trace.final (step node) (.init node ctx dids bs stmin) es)
        (Trace.final (step node) (.init node ctx dids bs stmin) es₂) →
      (∀ x ∈ Trace.history (step node) (Trace.final (step node)
        (.init node ctx dids bs stmin) es) es', ∀ u ∈ x.label.served, u.1 = t) →
      (Trace.history (step node) (Trace.final (step node)
          (.init node ctx dids bs stmin) es) es').map (seen node t) =
        (Trace.history (step node) (Trace.final (step node)
          (.init node ctx dids bs stmin) es₂) es').map (seen node t)) ∧
    (∀ t es', (∀ x ∈ Trace.history (step node) (Trace.final (step node)
        (.init node ctx dids bs stmin) es) es', ∀ u ∈ x.label.served, u.1 = t) →
      (Trace.history (step node) (Trace.final (step node)
          (.init node ctx dids bs stmin) es) es').map (seen node t) =
        (Trace.history (step node) (forget t (Trace.final (step node)
          (.init node ctx dids bs stmin) es)) es').map (seen node t)) := by
  have hsettled (es : List Event) :
      Settled (Trace.final (step node) (.init node ctx dids bs stmin) es) :=
    Trace.final_invariant Settled (settled_of_free rfl)
      (fun _ e hd => settled_step hd e) es
  refine ⟨?_, fun t es₂ es' halike hside => ?_, fun t es' hside => ?_⟩
  · exact (Trace.run_along (I := Owns node) (C := fun _ _ => True)
      (owns_init node ctx dids bs stmin) (fun es e h _ => ⟨owns_step h e, isolated_step h e⟩) es
      (fun _ _ _ _ => trivial)).2
  · exact (seen_alike halike (hsettled es) (hsettled es₂) es' hside).1
  · exact (seen_alike (alike_forget t _) (hsettled es) (settled_forget (hsettled es)) es' hside).1

end BloblyEmb.Diag
