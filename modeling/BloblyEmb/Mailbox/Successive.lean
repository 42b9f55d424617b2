import Mathlib.Algebra.Order.Ring.Nat
import BloblyEmb.Mailbox.Serving
import BloblyEmb.Diag.Isolation
import BloblyEmb.Boot.Rules

/-!
# Successive testers

The two servers of the mailbox: the application's connection (`comm/diag`) and the bootloader
(`boot/prog.v`). What a network tester obtained on either ends with its connection, as long as the
words of the mailbox do not wrap between a request and a drop.
-/
namespace BloblyEmb.Serving

/-! ## The application -/

section Application
open Diag
variable {ε : Type} {node : Node ε} {c : Connection ε}

/-- The application's connection. A level that a reset hides may come back, so it is in force. -/
def application (node : Node ε) : Server (Connection ε) Diag.Event Unit where
  serveRemote c req functional _ := (c.serveRemote node req functional).1
  remoteSent c := c.remoteSent
  remoteDropped c := c.remoteDropped node
  other c e :=
    match e with
    -- these come from the mailbox only
    | .remoteRequest _ _ | .remoteSent | .remoteDropped => c
    | e => (Diag.step node c e).1
  held c
    | .session =>
      if c.server.session = Uds.sessionDefault then none else some c.server.sessionEpoch.toNat
    | .unlock => if own true c = 0 ∧ hiddenOf true c = 0 then none else some 0
    | .exchange => if c.saLevel true = 0 then none else some 0

/-- The session is the network's if the connection says so; its own unlock and exchange always are. -/
def ofNetwork (c : Connection ε) : Grant → Prop
  | .session => c.remoteOwns = true
  | _ => True

/-- A request that enters no session leaves the session in force. -/
theorem session_serveRemote (c : Connection ε) (req : List UInt8) (f : Bool)
    (he : (c.serveRemote node req f).1.server.sessionEpoch = c.server.sessionEpoch) :
    (c.serveRemote node req f).1.server.session = c.server.session := by
  simp only [Connection.serveRemote] at he ⊢
  split at he
  · rename_i hno
    rw [if_pos hno]
  · rename_i hgo
    rw [if_neg hgo]
    dsimp only at he ⊢
    rw [handleFor_eq] at he ⊢
    obtain ⟨-, hentered, -, hsession, -⟩ := met_kept node true { c with remote := c.remote.begin }
    obtain ⟨-, -, -, -, -, hmask⟩ := leave_kept (within node true f req { c with remote := c.remote.begin })
      c.server.sessionEpoch (({ c with remote := c.remote.begin }.refreshDids node).enter true).2.2 true
    have hs := congrArg (·.session) (hmask 0)
    have hep := congrArg (·.sessionEpoch) (hmask 0)
    refine Eq.trans hs ?_
    have hep' := Eq.trans hep.symm he
    cases moves_handled node { c with remote := c.remote.begin } true f req with
    | same _ _ _ h' _ => exact h'.trans hsession
    | void _ _ h' _ => exact h'.trans hsession
    | seed _ _ h' _ => exact h'.trans hsession
    | key _ _ _ h' _ => exact h'.trans hsession
    | entry _ _ h' =>
      have hmoved := h'.trans (congrArg (· + 1) hentered)
      exact absurd (hmoved.symm.trans hep') (moved_ne _).1

/-- A session in force is told by its entry. -/
theorem epoch_of_held {c' : Connection ε}
    (hheld : (application node).held c' .session ≠ none)
    (hsame : (application node).held c' .session = (application node).held c .session) :
    c'.server.sessionEpoch = c.server.sessionEpoch := by
  simp only [application] at hheld hsame
  split_ifs at hheld hsame
  · exact absurd rfl hheld
  · exact UInt32.toNat_inj.mp (Option.some.inj hsame)

/-- A call within a session keeps its owner. -/
theorem ofNetwork_step (e : Diag.Event) (he : e.drops = false) {g : Grant} (hmine : ofNetwork c g)
    (hheld : (application node).held (Diag.step node c e).1 g ≠ none)
    (hsame : (application node).held (Diag.step node c e).1 g = (application node).held c g) :
    ofNetwork (Diag.step node c e).1 g := by
  cases g with
  | session => exact ((owner_step c e he).1 (epoch_of_held hheld hsame)).trans hmine
  | unlock => trivial
  | exchange => trivial

/-- The request that enters a session makes it the network's. -/
theorem ofNetwork_gained (c : Connection ε) (req : List UInt8) (f : Bool) {g : Grant}
    (hheld : (application node).held (c.serveRemote node req f).1 g ≠ none)
    (hnew : (application node).held (c.serveRemote node req f).1 g ≠ (application node).held c g) :
    ofNetwork (c.serveRemote node req f).1 g := by
  cases g with
  | unlock => trivial
  | exchange => trivial
  | session =>
    have hserved : (c.serveRemote node req f).2.served.map (·.1) = some true ∨
        (c.serveRemote node req f).1.server = c.server := by
      simp only [Connection.serveRemote]
      split
      · exact .inr rfl
      · exact .inl rfl
    by_cases he : (c.serveRemote node req f).1.server.sessionEpoch = c.server.sessionEpoch
    · -- the same entry, and so the same session
      exfalso
      apply hnew
      simp only [application, he, session_serveRemote c req f he]
    · rcases hserved with hserved | hsame
      · exact (@owner_step _ node c (.remoteRequest req f) rfl).2 he hserved
      · exact absurd (congrArg (·.sessionEpoch) hsame) he

/-- The drop of the network's connection ends what is the network's. -/
theorem ofNetwork_dropped {g : Grant} (hmine : ofNetwork c g) :
    (application node).held (c.remoteDropped node) g = none := by
  cases g with
  | session =>
    obtain ⟨hsession, -⟩ := remoteDropped_owner node c hmine
    simp only [application, hsession, if_true]
  | unlock =>
    simp only [application, remoteDropped_eq, own_cut, hiddenOf_cut, if_true, and_self]
  | exchange =>
    simp only [application, remoteDropped_eq, cut]
    simp

theorem application_ends (node : Node ε) :
    Ends (application node) (fun _ => True) ofNetwork where
  serve_inv _ _ _ _ := trivial
  sent_inv _ := trivial
  dropped_inv _ := trivial
  other_inv _ _ := trivial
  gained _ req f _ _ hheld hnew := ofNetwork_gained _ req f hheld hnew
  served _ req f _ _ hmine hheld hsame :=
    ofNetwork_step (.remoteRequest req f) rfl hmine hheld hsame
  sent _ _ hmine hheld hsame := ofNetwork_step .remoteSent rfl hmine hheld hsame
  moved _ a _ hmine hheld hsame := by
    cases a with
    | remoteRequest req f => exact hmine
    | remoteSent => exact hmine
    | remoteDropped => exact hmine
    | housekeep now => exact ofNetwork_step (.housekeep now) rfl hmine hheld hsame
    | frame now f => exact ofNetwork_step (.frame now f) rfl hmine hheld hsame
    | serve => exact ofNetwork_step .serve rfl hmine hheld hsame
    | pump now channel => exact ofNetwork_step (.pump now channel) rfl hmine hheld hsame
  dropped _ _ hmine hheld := absurd (ofNetwork_dropped hmine) hheld

end Application

/-! ## The bootloader -/

section Bootloader
open Boot Flash
variable {V : Verifier} {cfg : Boot.Config} {p p' : Prog} {w : Flash.World}

/-- What the session of a bootloader rests on. -/
def books (p : Prog) : UInt8 × Option Via × Bool × Bool × Bool :=
  (p.srv.session, p.owner, p.remoteSpoke, p.unlocked, p.challengeValid)

/-- Nothing is unlocked, and no challenge is out, in the default session. -/
def Locked (p : Prog) : Prop :=
  p.unlocked = true ∨ p.challengeValid = true → p.srv.session ≠ 0x01

/-- What an event that is neither a drop nor a reset makes of the session; `via` is the transport of
its request. -/
inductive Goes (p : Prog) (via : Option Via) (p' : Prog) : Prop
  | kept (h : books p' = books p)
  | ended (hsession : p'.srv.session = 0x01) (hlocked : p'.unlocked = false)
    (hvoid : p'.challengeValid = false)
  /-- The request was not refused for the other transport's session. -/
  | served {v : Via} (hvia : via = some v)
    (hfree : p.srv.session = 0x01 ∨ p.owner = none ∨ p.owner = some v)
    (howner : p'.owner = if p'.srv.session = 0x01 then none else some v)
    (hspoke : p'.remoteSpoke = Decidable.decide (p'.owner = some Via.net)) (hlocked : Locked p → Locked p')

theorem goes_of_ite {via : Option Via} {b : Prop} [Decidable b] {q q' : Prog} (h : Goes p via q)
    (h' : Goes p via q') : Goes p via (if b then q else q') := by
  split
  · exact h
  · exact h'

theorem goes_endSession (via : Option Via) (q : Prog) : Goes p via q.endSession :=
  .ended rfl rfl rfl

/-- The books that `settle` keeps. -/
theorem settle_books (v : Via) (q : Prog) : (q.settle v).srv = q.srv ∧
    (q.settle v).owner = (if q.srv.session = 0x01 then none else some v) ∧
    (q.settle v).remoteSpoke = Decidable.decide ((q.settle v).owner = some Via.net) ∧
    (q.settle v).unlocked = q.unlocked ∧ (q.settle v).challengeValid = q.challengeValid := by
  unfold Prog.settle
  dsimp only
  split <;> split <;> exact ⟨rfl, rfl, rfl, rfl, rfl⟩

/-- A dispatched request, settled. -/
theorem goes_settle {v : Via} {p₀ q : Prog} (h₀ : books p₀ = books p)
    (hfree : p₀.srv.session = 0x01 ∨ p₀.owner = none ∨ p₀.owner = some v)
    (hq : Locked p₀ → Locked q) : Goes p (some v) (q.settle v) := by
  simp only [books, Prod.mk.injEq] at h₀
  obtain ⟨hsession, howner, hspoke, hunlocked, hvalid⟩ := h₀
  obtain ⟨hsrv, hout, hheard, hu, hc⟩ := settle_books v q
  refine .served rfl ?_ ?_ hheard ?_
  · rwa [← hsession, ← howner]
  · rw [hsrv, hout]
  · intro hp
    have hlocked : Locked p₀ := by
      unfold Locked at hp ⊢
      rwa [hsession, hunlocked, hvalid]
    have hl := hq hlocked
    unfold Locked at hl ⊢
    rwa [hsrv, hu, hc]

/-- Only authentication unlocks, and only in the programming session. -/
theorem locked_authentication (draw : Draw) (req : List UInt8) (h : Locked p) :
    Locked (p.authentication V cfg draw req).1 := by
  have hsrv : (p.authentication V cfg draw req).1.srv = p.srv := by
    unfold Prog.authentication
    dsimp only
    split_ifs <;> rfl
  by_cases hd : p.srv.session = 0x01
  · have hsame : (p.authentication V cfg draw req).1 = p := by
      unfold Prog.authentication
      split
      · rfl
      · rw [if_pos (by simp [Prog.inProgrammingSession, hd])]
    rw [hsame]
    exact h
  · intro _
    rw [hsrv]
    exact hd

theorem locked_onlyDownload (h : OnlyDownload p p') (hl : Locked p) : Locked p' := by
  rw [h]
  exact hl

theorem sat_locked_dispatch {draw : Draw} {req : List UInt8} :
    Sat True (fun _ => True) (fun _ => True) (p.dispatch V cfg draw req) w
      (fun r _ => Locked p → Locked r.1) (fun _ => True) := by
  unfold Prog.dispatch
  split
  · refine Sat.pure fun _ h => ?_
    simp at h
  · exact Sat.pure (locked_authentication _ _)
  · rcases routineControl_cases cfg p req with ⟨r, -, -, -, heq⟩ | ⟨nrc, -, heq⟩
    · rw [heq]
      refine Sat.pure fun h => ?_
      cases r <;> exact h
    · rw [heq]
      exact Sat.pure id
  · exact serves_requestDownload.imp_post fun r _ h => locked_onlyDownload h.1
  · exact (serves_transferData fun _ _ => trivial).imp_post fun r _ h => locked_onlyDownload h.1
  · exact (serves_transferExit fun _ _ => trivial).imp_post fun r _ h => locked_onlyDownload h.1
  · refine Sat.pure fun h => ?_
    unfold Prog.ecuReset
    split <;> exact h
  · rename_i hno _ _ _ _ _ _
    refine Sat.pure fun h => ?_
    show Locked { p with srv := (p.srv.handle req).1 }
    rw [Uds.Server.handle_fst_of_ne _ _ hno]
    exact h

theorem goes_handleVia {v : Via} {draw : Draw} {req : List UInt8} {p₀ : Prog}
    (h₀ : books p₀ = books p) :
    Sat True (fun _ => True) (fun _ => True) (p₀.handleVia V cfg v draw req) w
      (fun r _ => Goes p (some v) r.1) (fun _ => True) := by
  unfold Prog.handleVia
  refine Sat.ite (fun _ => Sat.pure (.kept h₀)) fun _ => ?_
  refine Sat.ite (fun _ => Sat.pure (.kept h₀)) fun hfree => ?_
  refine Sat.ite (fun _ => Sat.pure (.kept h₀)) fun _ => ?_
  refine Sat.andThen sat_locked_dispatch fun r _ hr => Sat.pure (goes_settle h₀ ?_ hr)
  by_contra hno
  simp only [not_or] at hno
  exact hfree ⟨hno.1, hno.2.1, hno.2.2⟩

theorem books_heardVia (q : Prog) (v : Via) (now : ℕ) : books (q.heardVia v now) = books q := by
  unfold Prog.heardVia
  split <;> rfl

theorem books_workLeft (q : Prog) : books q.workLeft = books q := by
  unfold Prog.workLeft
  split
  · dsimp only
    split <;> rfl
  · rfl

/-- A step of a routine leaves the books. -/
theorem sat_books_step {now : ℕ} :
    Sat True (fun _ => True) (fun _ => True) (p.step V cfg now) w
      (fun r _ => books r.1 = books p) (fun _ => True) := by
  unfold Prog.step
  refine Sat.ite (fun _ => Sat.pure rfl) fun _ => ?_
  dsimp only
  refine Sat.ite (fun _ => Sat.pure ?_) fun _ => ?_
  · unfold Prog.resend
    dsimp only
    split_ifs <;> rfl
  refine Sat.ite (fun _ => ?_) fun _ => ?_
  · exact Sat.andThen Sat.any fun _ _ _ => Sat.pure rfl
  · refine Sat.andThen Sat.any fun _ _ _ => ?_
    refine Sat.ite (fun _ => Sat.pure rfl) fun _ => ?_
    dsimp only
    exact Sat.ite (fun _ => Sat.pure rfl) fun _ => Sat.pure rfl

/-- The silence of the tester ends the session, or leaves the books. -/
theorem goes_tick (cfg : Boot.Config) (now : ℕ) : Goes p none (p.tick cfg now) := by
  unfold Prog.tick
  extract_lets p₁ p₂ p₃ wait p₄
  have h₂ : books p₂ = books p := by
    simp only [p₂, p₁]
    split <;> rfl
  have h₃ : books p₃ = books p := by
    simp only [p₃]
    split
    · exact (books_heardVia _ _ _).trans h₂
    · exact h₂
  have h₄ : books p₄ = books p := by
    simp only [p₄]
    split
    · exact h₃
    · exact h₃
  exact goes_of_ite (goes_endSession none p₄) (.kept h₄)

/-- A drop, or a reset: what ends a session from outside. -/
def ends : Boot.Event → Bool
  | .remoteDropped | .reset _ => true
  | _ => false

theorem goes_serve {e : Boot.Event} (he : ends e = false) :
    Sat True (fun _ => True) (fun _ => True) (Boot.serve V cfg p e) w
      (fun r _ => Goes p (e.request.map (·.1)) r.1) (fun _ => True) := by
  cases e with
  | handle req draw => exact goes_handleVia rfl
  | serveRemote req functional draw =>
    unfold Boot.serve Prog.serveRemote
    dsimp only
    refine Sat.ite (fun _ => Sat.pure (.kept rfl)) fun hgo => ?_
    cases functional with
    | false => exact goes_handleVia (books_heardVia _ _ _)
    | true => simp at hgo
  | remoteSent =>
    refine Sat.pure (.kept ?_)
    unfold Prog.remoteSent
    dsimp only
    split
    · exact books_workLeft _
    · rfl
  | pushSent =>
    refine Sat.pure (.kept ?_)
    unfold Prog.pushSent
    split
    · exact books_workLeft _
    · rfl
  | workLeft => exact Sat.pure (.kept (books_workLeft p))
  | workLost =>
    refine Sat.pure (.kept ?_)
    unfold Prog.workLost
    split <;> rfl
  | netUp now =>
    refine Sat.pure (.kept ?_)
    unfold Prog.netUp
    split <;> rfl
  | heard now => exact Sat.pure (.kept (books_heardVia _ _ _))
  | tick now => exact Sat.pure (goes_tick cfg now)
  | cancelReset =>
    refine Sat.pure (.kept ?_)
    unfold Prog.cancelReset
    split <;> rfl
  | step now => exact sat_books_step.imp_post fun _ _ h => .kept h
  | remoteDropped | reset handoff => exact nomatch he

/-- A step of the machine; a power cut starts from the default session. -/
theorem goes_step (V : Verifier) (cfg : Boot.Config) (s : Boot.State) {i : Boot.Input} (he : ends i.event = false) :
    Goes s.prog (i.event.request.map (·.1)) (Boot.step V cfg s i).1.prog := by
  obtain ⟨-, hout⟩ := step_of_sat (goes_serve (w := ⟨s.mem, i.faults⟩) he) fun _ _ => trivial
  rcases hout with ⟨resp, w, -, -, hgoes⟩ | ⟨w, -, hs, -⟩ | ⟨w, -, hs, -⟩
  · exact hgoes
  · rw [hs]
    exact .ended rfl rfl rfl
  · rw [hs]
    exact .ended rfl rfl rfl

/-- The bootloader from one reset to the next. A session that was handed off over the network is
another one before a tester has spoken in it. -/
def bootloader (V : Verifier) (cfg : Boot.Config) :
    Server Boot.State Boot.Input (Draw × Faults) where
  serveRemote s req functional x := (Boot.step V cfg s ⟨.serveRemote req functional x.1, x.2⟩).1
  remoteSent s := (Boot.step V cfg s ⟨.remoteSent, {}⟩).1
  remoteDropped s := (Boot.step V cfg s ⟨.remoteDropped, {}⟩).1
  other s i :=
    match i.event with
    | .serveRemote _ _ _ | .remoteSent | .remoteDropped | .reset _ => s
    | _ => (Boot.step V cfg s i).1
  held s
    | .session =>
      if s.prog.srv.session = 0x01 then none
      else some (if s.prog.owner = some Via.net ∧ s.prog.remoteSpoke = false then 1 else 0)
    | .unlock => if s.prog.unlocked then some 0 else none
    | .exchange => if s.prog.challengeValid then some 0 else none

/-- The network holds the session, and its tester has spoken in it. -/
def Speaks (s : Boot.State) (_ : Grant) : Prop :=
  s.prog.owner = some Via.net ∧ s.prog.remoteSpoke = true

variable {s s' : Boot.State} {g : Grant}

theorem held_of_books (h : books s'.prog = books s.prog) :
    (bootloader V cfg).held s' g = (bootloader V cfg).held s g := by
  simp only [books, Prod.mk.injEq] at h
  obtain ⟨hsession, howner, hspoke, hunlocked, hvalid⟩ := h
  cases g <;> simp only [bootloader, hsession, howner, hspoke, hunlocked, hvalid]

/-- In the default session nothing is held. -/
theorem session_of_held (hl : Locked s.prog) (hheld : (bootloader V cfg).held s g ≠ none) :
    s.prog.srv.session ≠ 0x01 := by
  cases g with
  | session =>
    intro hd
    simp [bootloader, hd] at hheld
  | unlock => exact hl (.inl (by simpa [bootloader] using hheld))
  | exchange => exact hl (.inr (by simpa [bootloader] using hheld))

theorem held_of_ended (hsession : s.prog.srv.session = 0x01) (hlocked : s.prog.unlocked = false)
    (hvoid : s.prog.challengeValid = false) : (bootloader V cfg).held s g = none := by
  cases g <;> simp [bootloader, hsession, hlocked, hvoid]

/-- A session that a request settled belongs to its transport. -/
theorem speaks_of_settled (hsession : s.prog.srv.session ≠ 0x01)
    (howner : s.prog.owner = if s.prog.srv.session = 0x01 then none else some Via.net)
    (hspoke : s.prog.remoteSpoke = Decidable.decide (s.prog.owner = some Via.net)) :
    Speaks s g := by
  rw [if_neg hsession] at howner
  exact ⟨howner, by simp [hspoke, howner]⟩

theorem locked_step {i : Boot.Input} (he : ends i.event = false) (hl : Locked s.prog) :
    Locked (Boot.step V cfg s i).1.prog := by
  cases goes_step V cfg s he with
  | kept h =>
    simp only [books, Prod.mk.injEq] at h
    obtain ⟨hsession, -, -, hunlocked, hvalid⟩ := h
    unfold Locked at hl ⊢
    rwa [hsession, hunlocked, hvalid]
  | ended _ hlocked hvoid =>
    intro h
    simp [hlocked, hvoid] at h
  | served _ _ _ _ hlocked => exact hlocked hl

/-- The other transport cannot take a grant over. -/
theorem speaks_step {i : Boot.Input} (he : ends i.event = false) (hl : Locked s.prog)
    (hmine : Speaks s g) (hheld : (bootloader V cfg).held (Boot.step V cfg s i).1 g ≠ none)
    (hsame : (bootloader V cfg).held (Boot.step V cfg s i).1 g = (bootloader V cfg).held s g) :
    Speaks (Boot.step V cfg s i).1 g := by
  cases goes_step V cfg s he with
  | kept h =>
    simp only [books, Prod.mk.injEq] at h
    obtain ⟨-, howner, hspoke, -⟩ := h
    exact ⟨howner.trans hmine.1, hspoke.trans hmine.2⟩
  | ended hsession hlocked hvoid => exact absurd (held_of_ended hsession hlocked hvoid) hheld
  | @served v _ hfree howner hspoke hlocked =>
    have hlive := session_of_held hl (hsame ▸ hheld)
    obtain rfl : v = .net := by
      rcases hfree with hd | hnone | hv
      · exact absurd hd hlive
      · simp [hmine.1] at hnone
      · exact (Option.some.inj (hmine.1.symm.trans hv)).symm
    exact speaks_of_settled (session_of_held (hlocked hl) hheld) howner hspoke

/-- What a request of the network obtains is its own. -/
theorem speaks_gained {req : List UInt8} {f : Bool} {x : Draw × Faults} (hl : Locked s.prog)
    (hheld : (bootloader V cfg).held ((bootloader V cfg).serveRemote s req f x) g ≠ none)
    (hnew : (bootloader V cfg).held ((bootloader V cfg).serveRemote s req f x) g ≠
      (bootloader V cfg).held s g) : Speaks ((bootloader V cfg).serveRemote s req f x) g := by
  cases goes_step V cfg s (i := ⟨.serveRemote req f x.1, x.2⟩) rfl with
  | kept h => exact absurd (held_of_books h) hnew
  | ended hsession hlocked hvoid => exact absurd (held_of_ended hsession hlocked hvoid) hheld
  | @served v hvia _ howner hspoke hlocked =>
    obtain rfl : v = .net := by
      cases f with
      | false => exact (Option.some.inj hvia).symm
      | true => exact nomatch hvia
    exact speaks_of_settled (session_of_held (hlocked hl) hheld) howner hspoke

/-- The books after a drop: those of the session's end, if its tester had spoken. -/
theorem books_remoteDropped (p : Prog) : books p.remoteDropped =
    books (if p.owner = some Via.net ∧ p.remoteSpoke = true then p.endSession else p) := by
  unfold Prog.remoteDropped
  dsimp only
  split_ifs <;> rfl

theorem step_remoteDropped (s : Boot.State) :
    (bootloader V cfg).remoteDropped s = ⟨s.prog.remoteDropped, s.mem⟩ := by
  have h : Boot.step V cfg s ⟨.remoteDropped, {}⟩ = (⟨s.prog.remoteDropped, s.mem⟩, ⟨.done [], []⟩) :=
    step_of_pure rfl
  exact congrArg (·.1) h

/-- A call that is not the mailbox's is a step, or is none of them. -/
theorem other_cases (s : Boot.State) (i : Boot.Input) : (bootloader V cfg).other s i = s ∨
    ends i.event = false ∧ (bootloader V cfg).other s i = (Boot.step V cfg s i).1 := by
  rcases i with ⟨e, faults⟩
  cases e with
  | serveRemote req f draw => exact .inl rfl
  | remoteSent => exact .inl rfl
  | remoteDropped => exact .inl rfl
  | reset handoff => exact .inl rfl
  | _ => exact .inr ⟨rfl, rfl⟩

theorem bootloader_ends (V : Verifier) (cfg : Boot.Config) :
    Ends (bootloader V cfg) (fun s => Locked s.prog) Speaks where
  serve_inv h _ _ _ := locked_step rfl h
  sent_inv h := locked_step rfl h
  dropped_inv {s} h := by
    rw [step_remoteDropped]
    have hb := books_remoteDropped s.prog
    simp only [books, Prod.mk.injEq] at hb
    obtain ⟨hsession, -, -, hunlocked, hvalid⟩ := hb
    unfold Locked
    dsimp only
    rw [hsession, hunlocked, hvalid]
    split
    · intro h'
      simp [Prog.endSession] at h'
    · exact h
  other_inv {s} h i := by
    rcases other_cases s i with heq | ⟨he, heq⟩
    · rw [heq]
      exact h
    · rw [heq]
      exact locked_step he h
  gained h _ _ _ _ hheld hnew := speaks_gained h hheld hnew
  served h _ _ _ _ hmine hheld hsame := speaks_step rfl h hmine hheld hsame
  sent h _ hmine hheld hsame := speaks_step rfl h hmine hheld hsame
  moved {s} h i g hmine hheld hsame := by
    rcases other_cases s i with heq | ⟨he, heq⟩
    · rw [heq]
      exact hmine
    · rw [heq] at hheld hsame ⊢
      exact speaks_step he h hmine hheld hsame
  dropped {s} h g hmine hheld := by
    have hb := books_remoteDropped s.prog
    rw [if_pos ⟨hmine.1, hmine.2⟩] at hb
    have hnone : (bootloader V cfg).held ((bootloader V cfg).remoteDropped s) g = none := by
      rw [step_remoteDropped]
      exact (held_of_books (s := ⟨s.prog.endSession, s.mem⟩) hb).trans (held_of_ended rfl rfl rfl)
    exact absurd hnone hheld

end Bootloader

/-! ## Both -/

section Bench
open Boot Flash

/-- A node that has just booted. -/
def benchStart : System Boot.State := { server := Boot.start bench none fun _ => none }

def benchStep := System.step (bootloader rejecting bench)

/-- A request that is served, and its answer, which the thread does not send. -/
def benchAsk (req : List UInt8) : List (Serving.Event Boot.Input (Draw × Faults)) :=
  [.mailbox .post req false, .pass ({}, {}), .mailbox .collect [] false,
    .mailbox .discard [] false]

/-- The connection drops, and the next one is accepted. -/
def benchReconnect : List (Serving.Event Boot.Input (Draw × Faults)) :=
  [.mailbox .recycle [] false, .mailbox .drop [] false, .mailbox .connect [] false]

/-- A tester opens a programming session and goes; the next one is served in the default session. -/
def benchTesters : List (Serving.Event Boot.Input (Draw × Faults)) :=
  benchAsk [0x10, 0x02] ++ benchReconnect ++ benchAsk [0x3E, 0x00]

/-- A request that is posted and withdrawn. -/
def benchWithdrawn (req : List UInt8) : List (Serving.Event Boot.Input (Draw × Faults)) :=
  [.mailbox .post req false, .mailbox .withdraw [] false]

/-- So many requests were posted and withdrawn. -/
def benchPosted (k : ℕ) : System Boot.State :=
  { benchStart with
    world := { m := { posted := UInt32.ofNat k, settled := UInt32.ofNat k } }
    asker := 1
    tally := { posts := k } }

theorem benchPosted_step {k : ℕ} (hk : k + 1 < 2 ^ 32) :
    Trace.final benchStep (benchPosted k) (benchWithdrawn []) = benchPosted (k + 1) := by
  have hne : UInt32.ofNat (k + 1) ≠ 0 := by
    intro h
    have hnat := congrArg UInt32.toNat h
    rw [UInt32.toNat_ofNat', Nat.mod_eq_of_lt hk] at hnat
    simp at hnat
  have hadd : UInt32.ofNat k + 1 = UInt32.ofNat (k + 1) := (UInt32.ofNat_add k 1).symm
  have hserved : ((0 : UInt32) == UInt32.ofNat (k + 1)) = false := beq_eq_false_iff_ne.mpr hne.symm
  simp only [benchWithdrawn, benchPosted, Trace.final_cons, Trace.final_nil, benchStep, System.step,
    System.mailbox, Mailbox.World.step, Mailbox.World.stepThread, Mailbox.Mb.post,
    Mailbox.Mb.collect, Mailbox.Mb.withdraw, hadd, hserved, benchStart, and_self, if_true,
    Bool.false_eq_true, if_false]

/-- The requests before the number of the last one is all ones. -/
def benchWithdrawals : ℕ → List (Serving.Event Boot.Input (Draw × Faults))
  | 0 => []
  | k + 1 => benchWithdrawals k ++ benchWithdrawn []

theorem benchWithdrawals_final (j : ℕ) (hpos : 0 < j) (hj : j < 2 ^ 32) :
    Trace.final benchStep benchStart (benchWithdrawals j) = benchPosted j := by
  obtain ⟨k, rfl⟩ := Nat.exists_eq_succ_of_ne_zero (Nat.ne_of_gt hpos)
  induction k with
  | zero => rfl
  | succ k ih =>
    rw [benchWithdrawals, Trace.final_append, ih (Nat.succ_pos k) (by omega)]
    exact benchPosted_step hj

/-- The number of the request that opens the session is all ones, and that of the next one, which is
withdrawn, is zero: the drop after it is read as one before the session's request. -/
def benchWrap : List (Serving.Event Boot.Input (Draw × Faults)) :=
  benchAsk [0x10, 0x02] ++ benchWithdrawn [] ++ benchReconnect ++
    [.mailbox .post [0x3E, 0x00] false]

end Bench

end BloblyEmb.Serving
