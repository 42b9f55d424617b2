import BloblyEmb.Boot.Region

/-!
# The routine protocol

A routine works a unit at a time, over a link that may lose what it says. `Job` is what an
observer of the events and answers knows of the routine: the fate of the response that was handed
over last, how often it was said again, and the units done. The session's own flags follow it, so
that a unit runs only behind a confirmed response, a lost response is said again a bounded number
of times, and a positive answer stands for a routine whose every unit succeeded.
-/
namespace BloblyEmb.Boot
open Flash

variable {V : Verifier} {cfg : Config}

/-! ## The routine's own fields -/

/-- The fields of the routine in progress. -/
structure Gate where
  work : Work
  via : Option Via
  addr : ℕ
  stop : ℕ
  out : Bool
  push : Bool
  ready : Bool
  resend : Bool
  tries : ℕ
  rsp : List UInt8

def Prog.gate (p : Prog) : Gate :=
  ⟨p.work, p.workVia, p.workAddr, p.workEnd, p.workOut, p.workPush, p.workReady, p.workResend,
    p.workTries, p.workRsp⟩

theorem OnlyDownload.gate {p p' : Prog} (h : OnlyDownload p p') : p'.gate = p.gate := by
  rw [h]
  rfl

/-- The gate of a routine just started over `via`. -/
def Gate.opened (via : Via) (p : Prog) (r : Routine) : Gate :=
  { (p.start r).gate with
    via := some via
    out := true
    push := false
    ready := false
    resend := false
    tries := 0 }

/-- The bookkeeping after a request leaves a routine that is not at work alone. -/
theorem gate_settle_idle {p : Prog} (hidle : p.Idle) (via : Via) :
    (p.settle via).gate = p.gate := by
  have hno : ¬ (p.work = .erase ∨ p.work = .check) := by
    intro h
    exact h.elim hidle.1 hidle.2
  simp only [Prog.settle, if_neg hno]
  split <;> rfl

theorem gate_settle_start (p : Prog) (r : Routine) (via : Via) :
    ((p.start r).settle via).gate = .opened via p r := by
  have hstart : (p.start r).work = .erase ∨ (p.start r).work = .check := by
    cases r with
    | erase addr size => exact .inl rfl
    | check => exact .inr rfl
  simp only [Prog.settle, if_pos hstart]
  split <;> rfl

/-- What a request makes of the routine: nothing, or it starts one. -/
def Answers (cfg : Config) (p : Prog) (e : Event) (r : Prog × List UInt8) : Prop :=
  (r.1.gate = p.gate ∧ r.2 ≠ pending) ∨
    ∃ via req draw routine p₀, e.request = some (via, req, draw) ∧ req.head? = some 0x31 ∧
      routineOf req = some routine ∧ p.Idle ∧ routine.Admitted cfg p₀ ∧
      r = (((p₀.start routine).settle via), pending) ∧ p₀.gate = p.gate

theorem gate_authentication (V : Verifier) (cfg : Config) (draw : Draw) (p : Prog)
    (req : List UInt8) : (p.authentication V cfg draw req).1.gate = p.gate := by
  simp only [Prog.authentication]
  split_ifs <;> rfl

theorem gate_ecuReset (p : Prog) (req : List UInt8) : (p.ecuReset req).1.gate = p.gate := by
  simp only [Prog.ecuReset]
  split <;> rfl

theorem ecuReset_ne_pending (p : Prog) (req : List UInt8) : (p.ecuReset req).2 ≠ pending := by
  simp only [Prog.ecuReset]
  split
  · exact negative_ne_pending (by decide)
  · split <;> simp [pending, Uds.negative]

variable {w : World}

/-- A dispatched request. -/
theorem answers_dispatch {e : Event} {via : Via} {req : List UInt8} {draw : Draw} {p p₀ : Prog}
    (he : e.request = some (via, req, draw)) (hidle : p.Idle) (h₀ : p₀.gate = p.gate) :
    Sat True (fun _ => True) (fun _ => True)
      (p₀.dispatch V cfg draw req >>= fun r => pure (r.1.settle via, r.2)) w
      (fun r _ => Answers cfg p e r) (fun _ => True) := by
  have hidle₀ : p₀.Idle := by
    have hw : p₀.work = p.work := congrArg Gate.work h₀
    simpa only [Prog.Idle, hw] using hidle
  -- an answer of a service that leaves the routine's fields alone
  have hkeep {q : Prog} {resp : List UInt8} (hq : q.gate = p₀.gate) (hresp : resp ≠ pending) :
      Answers cfg p e (q.settle via, resp) := by
    have hidle' : q.Idle := by
      have hw : q.work = p₀.work := congrArg Gate.work hq
      simpa only [Prog.Idle, hw] using hidle₀
    exact .inl ⟨(gate_settle_idle hidle' via).trans (hq.trans h₀), hresp⟩
  have hserves {r : Prog × List UInt8} (hr : Serves p₀ r) :
      Answers cfg p e (r.1.settle via, r.2) := hkeep hr.1.gate hr.2
  simp only [Prog.dispatch]
  split
  · rw [FlashM.pure_bind]
    exact Sat.pure (hkeep rfl (handle_ne_pending _ _))
  · rw [FlashM.pure_bind]
    exact Sat.pure (hkeep (gate_authentication V cfg draw p₀ req)
      (authentication_ne_pending V cfg draw p₀ req))
  · rename_i hsid
    rw [FlashM.pure_bind]
    rcases routineControl_cases cfg p₀ req with ⟨r, hr, -, hadm, heq⟩ | ⟨nrc, hnrc, heq⟩
    · rw [heq]
      exact Sat.pure (.inr ⟨via, req, draw, r, p₀, he, hsid, hr, hidle, hadm, rfl, h₀⟩)
    · rw [heq]
      exact Sat.pure (hkeep rfl (negative_ne_pending hnrc))
  · exact serves_requestDownload.andThen fun r _ hr => Sat.pure (hserves hr)
  · exact (serves_transferData fun _ _ => trivial).andThen fun r _ hr => Sat.pure (hserves hr)
  · exact (serves_transferExit fun _ _ => trivial).andThen fun r _ hr => Sat.pure (hserves hr)
  · rw [FlashM.pure_bind]
    exact Sat.pure (hkeep (gate_ecuReset p₀ req) (ecuReset_ne_pending p₀ req))
  · rw [FlashM.pure_bind]
    exact Sat.pure (hkeep rfl (handle_ne_pending _ _))

theorem answers_handleVia {e : Event} {via : Via} {req : List UInt8} {draw : Draw} {p p₀ : Prog}
    (he : e.request = some (via, req, draw)) (h₀ : p₀.gate = p.gate) :
    Sat True (fun _ => True) (fun _ => True) (p₀.handleVia V cfg via draw req) w
      (fun r _ => Answers cfg p e r) (fun _ => True) := by
  simp only [Prog.handleVia]
  refine Sat.ite (fun _ => ?_) fun _ => Sat.ite (fun _ => ?_) fun _ => Sat.ite (fun _ => ?_)
    fun hwork => ?_
  · exact Sat.pure (.inl ⟨h₀, by simp [pending, Uds.negative]⟩)
  · exact Sat.pure (.inl ⟨h₀, negative_ne_pending (by decide)⟩)
  · exact Sat.pure (.inl ⟨h₀, negative_ne_pending (by decide)⟩)
  · have hw : p₀.work = p.work := congrArg Gate.work h₀
    rw [hw] at hwork
    refine answers_dispatch he ⟨fun h => ?_, fun h => ?_⟩ h₀
    · simp [h] at hwork
    · simp [h] at hwork

theorem gate_heardVia (p : Prog) (via : Via) (now : ℕ) : (p.heardVia via now).gate = p.gate := by
  simp only [Prog.heardVia]
  split <;> rfl

/-- A request of either transport. -/
def Event.isRequest : Event → Bool
  | .handle .. => true
  | .serveRemote .. => true
  | _ => false

theorem answers_serve {p : Prog} {e : Event} (he : e.isRequest = true) :
    Sat True (fun _ => True) (fun _ => True) (serve V cfg p e) w
      (fun r _ => Answers cfg p e r) (fun _ => True) := by
  cases e with
  | handle req draw => exact answers_handleVia rfl rfl
  | serveRemote req functional draw =>
    simp only [serve, Prog.serveRemote]
    refine Sat.ite (fun _ => Sat.pure (.inl ⟨rfl, by simp [pending, Uds.negative]⟩)) fun h => ?_
    have hf : functional = false := by
      cases functional
      · rfl
      · simp at h
    subst hf
    exact answers_handleVia rfl (gate_heardVia _ .net _)
  | _ => simp [Event.isRequest] at he

/-! ## A due unit -/

/-- The session as a due unit finds it. -/
def Prog.opened (p : Prog) (now : ℕ) : Prog := { p.stamp now with workReady := false }

/-- What the erase of a unit leaves, by the answer of the driver. -/
def Prog.erasedUnit (cfg : Config) (p : Prog) (ok : Bool) : Prog × List UInt8 :=
  if !ok then
    p.answerOut (Uds.negative 0x31 nrcGeneralProgrammingFailure)
  else if p.nextUnit cfg < p.workEnd then
    { p with workAddr := p.nextUnit cfg }.pendingOut
  else
    { p with workAddr := p.nextUnit cfg, erased := true }.answerOut (routineRsp routineErase 0x00)

theorem eraseUnit_eq (p : Prog) :
    p.eraseUnit cfg = Flash.erase p.workAddr (sub32 (p.nextUnit cfg) p.workAddr) >>= fun ok =>
      pure (p.erasedUnit cfg ok) := by
  simp only [Prog.eraseUnit, Prog.erasedUnit]
  congr 1
  funext ok
  cases ok with
  | false => rfl
  | true =>
    simp only [Bool.not_true, Bool.false_eq_true, if_false]
    split <;> rfl

/-- The answer a call gives is recorded with it. -/
theorem erase_done {addr size : ℕ} {w : World} {ok : Bool}
    (h : (Flash.erase addr size w).out = .done ok) :
    ∃ m, (Flash.erase addr size w).calls = [.erase addr size ok w.mem m] := by
  simp only [Flash.erase] at h ⊢
  split at h
  · obtain rfl := Outcome.done.inj h
    exact ⟨_, rfl⟩
  · obtain rfl := Fault.outcome_done h
    exact ⟨_, rfl⟩

theorem program_done {addr : ℕ} {data : List UInt8} {w : World} {ok : Bool}
    (h : (Flash.program addr data w).out = .done ok) :
    ∃ m, (Flash.program addr data w).calls = [.program addr data ok w.mem m] := by
  simp only [Flash.program] at h ⊢
  split at h
  · obtain rfl := Outcome.done.inj h
    exact ⟨_, rfl⟩
  · obtain rfl := Fault.outcome_done h
    exact ⟨_, rfl⟩

/-- A result behind a pure continuation is the continuation of a result. -/
theorem done_bind_pure {α β : Type} {m : FlashM α} {f : α → β} {w : World} {b : β}
    (h : ((m >>= fun a => pure (f a)) w).out = .done b) : ∃ a, (m w).out = .done a ∧ f a = b := by
  rw [FlashM.bind_apply] at h
  revert h
  rcases m w with ⟨out, w', cs⟩
  cases out with
  | done a =>
    intro h
    exact ⟨a, rfl, Outcome.done.inj h⟩
  | cut => exact fun h => nomatch h
  | trap => exact fun h => nomatch h

/-- A due unit of an erase that comes to an end: its one call, and what it leaves. -/
theorem done_step_erase {p : Prog} {now : ℕ} {w : World} {r : Prog × List UInt8}
    (hdue : p.workDue p.workVia = true) (hfresh : p.workResend = false) (hw : p.work = .erase)
    (h : (p.step V cfg now w).out = .done r) :
    ∃ ok m, (p.step V cfg now w).calls =
        [.erase p.workAddr (sub32 (p.nextUnit cfg) p.workAddr) ok w.mem m] ∧
      r = (p.opened now).erasedUnit cfg ok := by
  have hstep : p.step V cfg now = Flash.erase p.workAddr (sub32 (p.nextUnit cfg) p.workAddr) >>=
      fun ok => pure ((p.opened now).erasedUnit cfg ok) := by
    rw [step_of_due hdue hfresh, if_neg (by simp [hw])]
    exact eraseUnit_eq (p.opened now)
  rw [hstep] at h ⊢
  obtain ⟨ok, hok, hr⟩ := done_bind_pure h
  obtain ⟨m, hcalls⟩ := erase_done hok
  exact ⟨ok, m, (FlashM.calls_bind_pure _ _ w).trans hcalls, hr.symm⟩

/-- A due unit of a check that comes to an end. It programs the mark if it succeeds. -/
theorem done_step_check {p : Prog} {now : ℕ} {w : World} {r : Prog × List UInt8}
    (hdue : p.workDue p.workVia = true) (hfresh : p.workResend = false) (hw : p.work = .check)
    (h : (p.step V cfg now w).out = .done r) :
    ∃ ok : Bool, r = (p.opened now).answerOut (routineRsp routineCheck (if ok then 0x00 else 0x01)) ∧
      (ok = true → ∃ m m', (p.step V cfg now w).calls =
        [.program (u32 (cfg.appBase + 32)) Prog.markWord true m m']) := by
  have hstep : p.step V cfg now = Prog.checkAndMark V cfg >>= fun ok =>
      pure ((p.opened now).answerOut (routineRsp routineCheck (if ok then 0x00 else 0x01))) := by
    rw [step_of_due hdue hfresh, if_pos hw]
    rfl
  rw [hstep] at h ⊢
  obtain ⟨ok, hok, hr⟩ := done_bind_pure h
  refine ⟨ok, hr.symm, fun htrue => ?_⟩
  subst htrue
  obtain ⟨w', -, ⟨-, hrun⟩ | ⟨-, hrun⟩⟩ := checkAndMark_spec V cfg w
  · rw [hrun] at hok
    obtain ⟨m, hcalls⟩ := program_done hok
    exact ⟨_, m, (FlashM.calls_bind_pure _ _ w).trans (hrun ▸ hcalls)⟩
  · rw [hrun] at hok
    exact nomatch hok

/-! ## What an observer knows -/

/-- What became of the response handed over last. -/
inductive Fate
  | out
  | confirmed
  | lost
  deriving DecidableEq, Repr

structure Job where
  via : Option Via := none
  /-- The routine that was asked for. -/
  asked : Option Routine := none
  fate : Fate := .confirmed
  /-- The response was pushed over the network, so that its own acknowledgement counts. -/
  push : Bool := false
  said : List UInt8 := []
  /-- How often the response was said again since it was first said or last confirmed. -/
  resent : ℕ := 0
  /-- The flash calls of the units done. -/
  calls : List Call := []
  /-- How many units were done. -/
  units : ℕ := 0

def Event.isStep : Event → Bool
  | .step _ => true
  | _ => false

/-- The step does a unit of the routine, not only says something again. -/
def DoesUnit (x : Trace.Entry State Input Label) : Prop :=
  x.event.event.isStep = true ∧ x.before.prog.workDue x.before.prog.workVia = true ∧
    x.before.prog.workResend = false

instance (x : Trace.Entry State Input Label) : Decidable (DoesUnit x) :=
  inferInstanceAs (Decidable (_ ∧ _ ∧ _))

namespace Job

/-- The response that is out has been delivered. -/
def confirm (j : Job) : Job := if j.fate = .out then { j with fate := .confirmed, resent := 0 } else j

/-- The response that is out is lost. -/
def lose (j : Job) : Job := if j.fate = .out then { j with fate := .lost } else j

/-- A routine is started. -/
def opened (via : Via) (req : List UInt8) : Job :=
  { via := some via, asked := routineOf req, fate := .out, said := pending }

/-- A response is handed over. -/
def say (j : Job) (resp : List UInt8) (again : Bool) : Job :=
  { j with
    fate := .out
    push := j.via = some Via.net
    said := resp
    resent := if again then j.resent + 1 else 0 }

/-- A unit is done, and a response handed over. -/
def work (j : Job) (calls : List Call) (resp : List UInt8) : Job :=
  { j with calls := j.calls ++ calls, units := j.units + 1 }.say resp false

/-- A step hands over nothing, or says something again or for the first time. -/
def speak (j : Job) (resp : List UInt8) : Job := if resp = [] then j else j.say resp (resp == j.said)

/-- A request is answered. -/
def answered (j : Job) (e : Event) : Outcome (List UInt8) → Job
  | .done resp =>
    match e.request with
    | some (via, req, _) => if resp = pending then opened via req else j
    | none => j
  | _ => j

/-- A step of the run is seen. -/
def after (j : Job) (x : Trace.Entry State Input Label) : Job :=
  match x.event.event with
  | .step _ =>
    match x.label.out with
    | .done resp => if DoesUnit x then j.work x.label.calls resp else j.speak resp
    | _ => j
  | .workLeft => j.confirm
  | .workLost => j.lose
  | .remoteSent => if j.via = some .net ∧ j.push = false then j.confirm else j
  | .pushSent => if j.via = some .net ∧ j.push = true then j.confirm else j
  | e => j.answered e x.label.out

/-- What an observer of the run knows. -/
def of (hist : List (Trace.Entry State Input Label)) : Job := hist.foldl after {}

theorem of_snoc (hist : List (Trace.Entry State Input Label))
    (x : Trace.Entry State Input Label) : of (hist ++ [x]) = (of hist).after x :=
  List.foldl_concat ..

end Job

/-- A positive answer stands for a routine whose every unit succeeded: the erase calls tile the
region that was asked for, or the check has marked the image. -/
def Earned (cfg : Config) (j : Job) (resp : List UInt8) : Prop :=
  (resp = routineRsp routineErase 0x00 → ∃ addr size, j.asked = some (.erase addr size) ∧
    Tiles cfg addr (addr + size) j.calls ∧ ∀ c ∈ j.calls, c.ok = true) ∧
  (resp = routineRsp routineCheck 0x00 → j.asked = some .check ∧ j.units = 1 ∧
    ∃ m m', j.calls = [.program (u32 (cfg.appBase + 32)) Prog.markWord true m m'])

/-- An answer that says nothing went well promises nothing. -/
theorem Earned.of_ne {j : Job} {resp : List UInt8} (he : resp ≠ routineRsp routineErase 0x00)
    (hc : resp ≠ routineRsp routineCheck 0x00) : Earned cfg j resp :=
  ⟨fun h => absurd h he, fun h => absurd h hc⟩

theorem earned_failure (j : Job) :
    Earned cfg j (Uds.negative 0x31 nrcGeneralProgrammingFailure) :=
  .of_ne (by decide) (by decide)

theorem earned_erase {j : Job} {addr size : ℕ} (hasked : j.asked = some (.erase addr size))
    (htiles : Tiles cfg addr (addr + size) j.calls) (hok : ∀ c ∈ j.calls, c.ok = true) :
    Earned cfg j (routineRsp routineErase 0x00) :=
  ⟨fun _ => ⟨addr, size, hasked, htiles, hok⟩, fun h => absurd h (by decide)⟩

theorem earned_check {j : Job} {ok : Bool} (hasked : j.asked = some .check) (hunits : j.units = 1)
    (hcalls : ok = true → ∃ m m',
      j.calls = [.program (u32 (cfg.appBase + 32)) Prog.markWord true m m']) :
    Earned cfg j (routineRsp routineCheck (if ok then 0x00 else 0x01)) := by
  constructor
  · intro h
    cases ok with
    | false => exact absurd h (by decide)
    | true => exact absurd h (by decide)
  · intro h
    cases ok with
    | false => exact absurd h (by decide)
    | true => exact ⟨hasked, hunits, hcalls rfl⟩

/-- How far the routine has come. -/
def Progress (cfg : Config) (g : Gate) (j : Job) : Prop :=
  match g.work with
  | .none => True
  | .erase => ∃ addr size, j.asked = some (.erase addr size) ∧ Tiles cfg addr g.addr j.calls ∧
      g.stop = addr + size ∧ ∀ c ∈ j.calls, c.ok = true
  | .check => j.asked = some .check ∧ j.units = 0 ∧ j.calls = []
  | .answer => Earned cfg j g.rsp

/-- The flags of a routine in progress agree with what an observer knows. -/
structure Tracks (cfg : Config) (g : Gate) (j : Job) : Prop where
  via : g.via = j.via
  out : g.out = Decidable.decide (j.fate = .out)
  ready : g.ready = Decidable.decide (j.fate = .confirmed)
  resend : g.resend = Decidable.decide (j.fate = .lost)
  push : j.fate = .out → g.push = j.push
  said : j.said = if g.work = .answer then g.rsp else pending
  spoken : j.said ≠ []
  tries : g.tries = j.resent
  fresh : j.fate = .confirmed → j.resent = 0
  bound : j.resent ≤ workResendMax
  answer : g.work = .answer → j.fate ≠ .confirmed
  progress : Progress cfg g j

/-- Behind a confirmed response nothing has been tried again. -/
theorem Tracks.tries_ready {p : Prog} {j : Job} (ht : Tracks cfg p.gate j)
    (hready : p.workReady = true) : p.workTries = 0 := by
  have hfate : j.fate = .confirmed := by
    simpa [show p.workReady = _ from ht.ready] using hready
  exact (show p.workTries = j.resent from ht.tries).trans (ht.fresh hfate)

/-- While a routine is in progress. -/
def Tracked (cfg : Config) (p : Prog) (j : Job) : Prop := p.work ≠ .none → Tracks cfg p.gate j

namespace Tracked
variable {p p' : Prog} {j : Job}

theorem of_none (h : p.work = .none) : Tracked cfg p j := fun hne => absurd h hne

theorem of_gate (h : Tracked cfg p j) (hg : p'.gate = p.gate) : Tracked cfg p' j := by
  intro hne
  have hw : p'.work = p.work := congrArg Gate.work hg
  rw [hg]
  exact h (hw ▸ hne)

theorem ite {c : Prop} [Decidable c] {q q' : Prog} (h : Tracked cfg q j) (h' : Tracked cfg q' j) :
    Tracked cfg (if c then q else q') j := by
  split
  · exact h
  · exact h'

theorem work_workLeft (hnone : p.work = .none) : p.workLeft.work = .none := by
  simp only [Prog.workLeft]
  split
  · split
    · rfl
    · exact hnone
  · exact hnone

/-- The response that is out is delivered. -/
theorem workLeft (h : Tracked cfg p j) : Tracked cfg p.workLeft j.confirm := by
  by_cases hnone : p.work = .none
  · exact .of_none (work_workLeft hnone)
  have ht := h hnone
  by_cases hfate : j.fate = .out
  · have hout : p.workOut = true := by
      rw [show p.workOut = _ from ht.out]
      simpa using hfate
    simp only [Prog.workLeft, Job.confirm, if_pos hout, if_pos hfate]
    by_cases hans : p.work = .answer
    · rw [if_pos hans]
      exact .of_none rfl
    · rw [if_neg hans]
      intro _
      exact { via := ht.via, out := rfl, ready := rfl, resend := ht.resend.trans (by simp [hfate]),
              push := nofun, said := ht.said, spoken := ht.spoken, tries := rfl, fresh := fun _ => rfl, bound := Nat.zero_le _,
              answer := fun h => absurd h hans, progress := ht.progress }
  · have hout : ¬ p.workOut = true := by
      rw [show p.workOut = _ from ht.out]
      simpa using hfate
    simp only [Prog.workLeft, Job.confirm, if_neg hout, if_neg hfate]
    exact h

/-- The response that is out is lost. -/
theorem workLost (h : Tracked cfg p j) : Tracked cfg p.workLost j.lose := by
  by_cases hnone : p.work = .none
  · refine .of_none ?_
    simp only [Prog.workLost]
    split <;> exact hnone
  have ht := h hnone
  by_cases hfate : j.fate = .out
  · have hout : p.workOut = true := by
      rw [show p.workOut = _ from ht.out]
      simpa using hfate
    simp only [Prog.workLost, Job.lose, if_pos hout, if_pos hfate]
    intro _
    exact { via := ht.via, out := rfl, ready := ht.ready.trans (by simp [hfate]), resend := rfl,
            push := nofun, said := ht.said, spoken := ht.spoken, tries := ht.tries, fresh := nofun, bound := ht.bound,
            answer := nofun, progress := ht.progress }
  · have hout : ¬ p.workOut = true := by
      rw [show p.workOut = _ from ht.out]
      simpa using hfate
    simp only [Prog.workLost, Job.lose, if_neg hout, if_neg hfate]
    exact h

/-- An acknowledgement counts when it is the one the response waits for. -/
theorem acknowledged (h : Tracked cfg p j) (push : Bool) :
    Tracked cfg (if p.workVia = some .net ∧ p.workPush = push then p.workLeft else p)
      (if j.via = some .net ∧ j.push = push then j.confirm else j) := by
  by_cases hnone : p.work = .none
  · refine .of_none ?_
    split
    · exact work_workLeft hnone
    · exact hnone
  have ht := h hnone
  by_cases hfate : j.fate = .out
  · have hvia : p.workVia = j.via := ht.via
    have hpush : p.workPush = j.push := ht.push hfate
    rw [hvia, hpush]
    split
    · exact h.workLeft
    · exact h
  · -- nothing is out, so that no acknowledgement has an effect
    have hout : ¬ p.workOut = true := by
      rw [show p.workOut = _ from ht.out]
      simpa using hfate
    have hleft : p.workLeft = p := by simp only [Prog.workLeft, if_neg hout]
    have hconfirm : j.confirm = j := by simp only [Job.confirm, if_neg hfate]
    rw [hleft, hconfirm, ite_self, ite_self]
    exact h

/-- A response is handed over, and the answer or the pending units with it. -/
theorem said {resp : List UInt8} {again : Bool}
    (hgate : (p'.workVia, p'.workOut, p'.workPush, p'.workReady, p'.workResend) =
      (p.workVia, true, Decidable.decide (p.workVia = some .net), false, false))
    (hsaid : resp = if p'.work = .answer then p'.workRsp else pending) (hspoken : resp ≠ [])
    (htries : p'.workTries = if again then j.resent + 1 else 0)
    (hbound : again = true → j.resent < workResendMax)
    (hprogress : Progress cfg p'.gate (j.say resp again)) (hv : p.workVia = j.via) : Tracked cfg p' (j.say resp again) := by
  simp only [Prod.mk.injEq] at hgate
  obtain ⟨hvia, hout, hpush, hready, hresend⟩ := hgate
  intro _
  refine { via := hvia.trans hv, out := hout, ready := hready, resend := hresend,
           push := fun _ => ?_, said := hsaid, spoken := hspoken, tries := htries, fresh := nofun, bound := ?_, answer := nofun,
           progress := hprogress }
  · exact hpush.trans (by rw [hv]; rfl)
  · simp only [Job.say]
    cases again with
    | false => exact Nat.zero_le _
    | true => exact hbound rfl

end Tracked

/-! ## One step -/

/-- What was lost is said again, or the routine is over. -/
theorem tracked_resend {p : Prog} {j : Job} (ht : Tracks cfg p.gate j) (now : ℕ)
    (hresend : p.workResend = true) :
    Tracked cfg (p.stamp now).resend.1 (j.speak (p.stamp now).resend.2) ∧
      if j.resent < workResendMax then (p.stamp now).resend.2 = j.said
      else (p.stamp now).resend.1.work = .none ∨ (p.stamp now).resend.1.work = .answer ∧
        (p.stamp now).resend.2 = Uds.negative 0x31 nrcGeneralProgrammingFailure := by
  have htries : p.workTries = j.resent := ht.tries
  have hsaid := ht.said
  have hclosed : p.workReady = false ∧ j.fate = .lost := by
    have hlost : j.fate = .lost := by simpa [show p.workResend = _ from ht.resend] using hresend
    exact ⟨by rw [show p.workReady = _ from ht.ready, hlost]; rfl, hlost⟩
  simp only [Prog.resend, Prog.stamp, htries]
  by_cases hans : p.work = .answer
  · have hrsp : j.said = p.workRsp := hsaid.trans (if_pos hans)
    simp only [if_pos hans]
    by_cases hmax : j.resent < workResendMax
    · rw [if_neg (by omega), if_pos hmax]
      refine ⟨?_, hrsp.symm⟩
      rw [← hrsp, Job.speak, if_neg ht.spoken, beq_self_eq_true]
      refine Tracked.said (by simp [hclosed.1]) (if_pos hans).symm ht.spoken rfl
        (fun _ => hmax) ?_ ht.via
      have hearned : Earned cfg j p.workRsp := by
        simpa only [Progress, Prog.gate, hans] using ht.progress
      simp only [Progress, Prog.gate, hans]
      exact hrsp ▸ hearned
    · rw [if_pos (by omega), if_neg hmax]
      exact ⟨.of_none rfl, .inl rfl⟩
  · have hpend : j.said = pending := hsaid.trans (if_neg hans)
    simp only [if_neg hans]
    by_cases hmax : j.resent < workResendMax
    · rw [if_neg (by omega), if_pos hmax]
      refine ⟨?_, hpend.symm⟩
      change Tracked cfg _ (j.speak pending)
      rw [← hpend, Job.speak, if_neg ht.spoken, beq_self_eq_true]
      exact Tracked.said (by simp [Prog.pendingOut, hclosed.1]) (hpend.trans (if_neg hans).symm)
        ht.spoken rfl (fun _ => hmax) ht.progress ht.via
    · rw [if_pos (by omega), if_neg hmax]
      refine ⟨?_, .inr ⟨rfl, rfl⟩⟩
      change Tracked cfg _ (j.speak (Uds.negative 0x31 nrcGeneralProgrammingFailure))
      have hother : (Uds.negative 0x31 nrcGeneralProgrammingFailure == j.said) = false := by
        rw [hpend]
        rfl
      rw [Job.speak, if_neg (by simp [Uds.negative]), hother]
      refine Tracked.said (by simp [Prog.answerOut, hclosed.1]) rfl (by simp [Uds.negative]) rfl
        (by intros; contradiction) ?_ ht.via
      exact earned_failure _

/-- The erase of the next unit tiles the region on from the cursor. -/
theorem tiles_unit (hg : Geometry cfg) {p : Prog} (hr : InRegion cfg p) (hw : p.work = .erase)
    (ok : Bool) (m m' : Mem) :
    Tiles cfg p.workAddr (p.nextUnit cfg)
        [.erase p.workAddr (sub32 (p.nextUnit cfg) p.workAddr) ok m m'] ∧
      p.nextUnit cfg ≤ p.workEnd := by
  obtain ⟨hbase, hlt, hend⟩ := hr.erase hw
  obtain ⟨hn, hn', hunit, -⟩ := nextUnit_spec hg hbase hlt hend
  have hwin := cfg.window
  have hsub : sub32 (p.nextUnit cfg) p.workAddr = p.nextUnit cfg - p.workAddr := by
    simp only [sub32, u32]
    omega
  have hto : p.workAddr + (p.nextUnit cfg - p.workAddr) = p.nextUnit cfg := by omega
  refine ⟨⟨rfl, rfl, ?_, fun hu => ?_, ?_⟩, hn'⟩
  · rw [Call.size_erase, hsub]
    omega
  · rw [Call.size_erase, hsub, hto]
    exact hunit hu
  · rw [Call.size_erase, hsub]
    exact hto

/-- A unit of an erase, by the answer of the driver. -/
theorem tracked_erase (hg : Geometry cfg) {p : Prog} {j : Job} (hr : InRegion cfg p)
    (ht : Tracks cfg p.gate j) (hw : p.work = .erase) (hready : p.workReady = true)
    (hfresh : p.workResend = false) (now : ℕ) (ok : Bool) (m m' : Mem) :
    Tracked cfg ((p.opened now).erasedUnit cfg ok).1 (j.work
        [.erase p.workAddr (sub32 (p.nextUnit cfg) p.workAddr) ok m m']
        ((p.opened now).erasedUnit cfg ok).2) := by
  obtain ⟨htile, hle⟩ := tiles_unit hg hr hw ok m m'
  have hprogress : Progress cfg p.gate j := ht.progress
  simp only [Progress, Prog.gate, hw] at hprogress
  obtain ⟨addr, size, hasked, htiles, hstop, hok⟩ := hprogress
  have hnext : (p.opened now).nextUnit cfg = p.nextUnit cfg := rfl
  have hend : (p.opened now).workEnd = p.workEnd := rfl
  simp only [Prog.erasedUnit, hnext, hend, Job.work]
  cases ok with
  | false =>
    simp only [Bool.not_false, if_true]
    exact Tracked.said (by simp [Prog.answerOut, Prog.opened, Prog.stamp, hfresh]) rfl
      (by simp [Prog.answerOut, Uds.negative]) rfl nofun (earned_failure _)
      ht.via
  | true =>
    have hok' : ∀ c ∈ j.calls ++ [.erase p.workAddr (sub32 (p.nextUnit cfg) p.workAddr) true m m'],
        c.ok = true := by
      intro c hc
      rcases List.mem_append.mp hc with hc | hc
      · exact hok c hc
      · rw [List.mem_singleton.mp hc]
        rfl
    simp only [Bool.not_true, Bool.false_eq_true, if_false]
    by_cases hlt : p.nextUnit cfg < p.workEnd
    · rw [if_pos hlt]
      refine Tracked.said (by simp [Prog.pendingOut, Prog.opened, Prog.stamp, hfresh])
        (by simp [Prog.pendingOut, Prog.opened, Prog.stamp, hw, pending])
        (by simp [Prog.pendingOut, Uds.negative]) ?_ nofun ?_ ht.via
      · exact ht.tries_ready hready
      · simp only [Progress, Prog.gate, Prog.pendingOut, Prog.opened, Prog.stamp, hw]
        exact ⟨addr, size, hasked, htiles.append htile, hstop, hok'⟩
    · rw [if_neg hlt]
      refine Tracked.said (by simp [Prog.answerOut, Prog.opened, Prog.stamp, hfresh]) rfl
        (by simp [Prog.answerOut, routineRsp]) rfl nofun ?_ ht.via
      have heq : p.nextUnit cfg = addr + size := by omega
      exact earned_erase hasked (heq ▸ htiles.append htile) hok'

/-- The one unit of a check. -/
theorem tracked_check {p : Prog} {j : Job} (ht : Tracks cfg p.gate j) (hw : p.work = .check)
    (hfresh : p.workResend = false) (now : ℕ) {ok : Bool} {calls : List Call}
    (hcalls : ok = true → ∃ m m',
      calls = [.program (u32 (cfg.appBase + 32)) Prog.markWord true m m']) :
    Tracked cfg ((p.opened now).answerOut (routineRsp routineCheck (if ok then 0x00 else 0x01))).1
      (j.work calls (routineRsp routineCheck (if ok then 0x00 else 0x01))) := by
  have hprogress : Progress cfg p.gate j := ht.progress
  simp only [Progress, Prog.gate, hw] at hprogress
  obtain ⟨hasked, hunits, hnone⟩ := hprogress
  refine Tracked.said (by simp [Prog.answerOut, Prog.opened, Prog.stamp, hfresh]) rfl
    (by simp [routineRsp]) rfl nofun ?_ ht.via
  refine earned_check hasked (by simp [Job.say, hunits]) fun hok => ?_
  simpa [Job.say, hnone] using hcalls hok

/-! ## Every step -/

theorem after_of_request {j : Job} {x : Trace.Entry State Input Label}
    (h : x.event.event.isRequest = true) : j.after x = j.answered x.event.event x.label.out := by
  simp only [Job.after]
  generalize x.event.event = e at h
  cases e with
  | handle req draw => rfl
  | serveRemote req functional draw => rfl
  | _ => simp [Event.isRequest] at h

/-- A routine just started. -/
theorem tracks_opened {p : Prog} {r : Routine} {via : Via} {req : List UInt8}
    (hr : routineOf req = some r) (hadm : r.Admitted cfg p) :
    Tracks cfg (.opened via p r) (.opened via req) where
  via := rfl
  out := rfl
  ready := rfl
  resend := rfl
  push _ := rfl
  said := by
    cases r with
    | erase addr size => rfl
    | check => rfl
  spoken := by simp [Job.opened, pending, Uds.negative]
  tries := rfl
  fresh := (by intros; contradiction)
  bound := Nat.zero_le _
  answer _ := fun h => (by cases h)
  progress := by
    cases r with
    | erase addr size =>
      obtain ⟨-, -, hend⟩ := regionOk_iff.mp (show Prog.regionOk cfg addr size = true from hadm)
      have hwin := cfg.window
      exact ⟨addr, size, hr, rfl, u32_of_lt (by omega), (by intros; contradiction)⟩
    | check => exact ⟨hr, rfl, rfl⟩

theorem tracked_request {s : State} {i : Input} {j : Job} (he : i.event.isRequest = true)
    (ht : Tracked cfg s.prog j) :
    Tracked cfg (step V cfg s i).1.prog (j.after (Trace.entry (step V cfg) s i)) := by
  rw [after_of_request he]
  obtain ⟨-, hout⟩ := step_of_sat (answers_serve (w := ⟨s.mem, i.faults⟩) he)
    fun _ _ => trivial
  rcases hout with ⟨resp, w, ho, -, hans⟩ | ⟨w, -, hs, -⟩ | ⟨w, -, hs, -⟩
  · rw [Trace.entry_label, ho]
    simp only [Job.answered, Trace.entry_event]
    rcases hans with ⟨hgate, hne⟩ | ⟨via, req, draw, r, p₀, hreq, -, hr, -, hadm, heq, -⟩
    · have hsame : (match i.event.request with
          | some (via, req, _) => if resp = pending then Job.opened via req else j
          | none => j) = j := by
        split
        · exact if_neg hne
        · rfl
      rw [hsame]
      exact ht.of_gate hgate
    · obtain ⟨hprog, hresp⟩ := Prod.mk.inj heq
      rw [hreq, hprog]
      intro _
      simp only [if_pos hresp, gate_settle_start]
      exact tracks_opened hr hadm
  · rw [hs]
    exact .of_none rfl
  · rw [hs]
    exact .of_none rfl

/-- A computation that comes to an end shows in the step of the machine. -/
theorem step_of_done {s : State} {i : Input} {r : Prog × List UInt8}
    (h : (serve V cfg s.prog i.event ⟨s.mem, i.faults⟩).out = .done r) :
    (step V cfg s i).1.prog = r.1 ∧ (step V cfg s i).2.out = .done r.2 := by
  simp only [step]
  revert h
  rcases serve V cfg s.prog i.event ⟨s.mem, i.faults⟩ with ⟨out, w, calls⟩
  intro h
  obtain rfl : out = .done r := h
  exact ⟨rfl, rfl⟩

/-- What a step of the routine is. -/
inductive StepCase (V : Verifier) (cfg : Config) (s : State) (i : Input) (now : ℕ) : Prop
  | idle (hout : (step V cfg s i).2.out = .done []) (hprog : (step V cfg s i).1.prog = s.prog)
      (hcalls : (step V cfg s i).2.calls = [])
      (hdue : s.prog.workDue s.prog.workVia = false)
  | again (hout : (step V cfg s i).2.out = .done (s.prog.stamp now).resend.2)
      (hprog : (step V cfg s i).1.prog = (s.prog.stamp now).resend.1)
      (hcalls : (step V cfg s i).2.calls = []) (hne : s.prog.work ≠ .none)
      (hresend : s.prog.workResend = true)
  | lost (hout : ∀ resp, (step V cfg s i).2.out ≠ .done resp)
      (hdue : s.prog.workDue s.prog.workVia = true) (hfresh : s.prog.workResend = false)
  | erase (hw : s.prog.work = .erase) (hready : s.prog.workReady = true)
      (hfresh : s.prog.workResend = false) (ok : Bool) (m m' : Mem)
      (hout : (step V cfg s i).2.out = .done ((s.prog.opened now).erasedUnit cfg ok).2)
      (hprog : (step V cfg s i).1.prog = ((s.prog.opened now).erasedUnit cfg ok).1)
      (hcalls : (step V cfg s i).2.calls =
        [.erase s.prog.workAddr (sub32 (s.prog.nextUnit cfg) s.prog.workAddr) ok m m'])
      (hdue : s.prog.workDue s.prog.workVia = true)
  | check (hw : s.prog.work = .check) (hready : s.prog.workReady = true)
      (hfresh : s.prog.workResend = false) (ok : Bool)
      (hout : (step V cfg s i).2.out = .done (routineRsp routineCheck (if ok then 0x00 else 0x01)))
      (hprog : (step V cfg s i).1.prog =
        ((s.prog.opened now).answerOut (routineRsp routineCheck (if ok then 0x00 else 0x01))).1)
      (hcalls : ok = true → ∃ m m', (step V cfg s i).2.calls =
        [.program (u32 (cfg.appBase + 32)) Prog.markWord true m m'])
      (hdue : s.prog.workDue s.prog.workVia = true)

theorem stepCase {s : State} {i : Input} {now : ℕ} (hi : i.event = .step now)
    (hp : s.prog.Paced) : StepCase V cfg s i now := by
  have hserve : serve V cfg s.prog i.event = s.prog.step V cfg now := by
    rw [hi]
    rfl
  by_cases hdue : s.prog.workDue s.prog.workVia = true
  · have hne : s.prog.work ≠ .none := by
      intro h
      simp [Prog.workDue, h] at hdue
    by_cases hresend : s.prog.workResend = true
    · have hpure : s.prog.step V cfg now = pure (s.prog.stamp now).resend := by
        simp only [Prog.step, hdue, Bool.not_true, Bool.false_eq_true, if_false]
        exact if_pos hresend
      have hs : step V cfg s i = (⟨(s.prog.stamp now).resend.1, s.mem⟩,
          ⟨.done (s.prog.stamp now).resend.2, []⟩) := step_of_pure (hserve.trans hpure)
      exact .again (by rw [hs]) (by rw [hs]) (by rw [hs]) hne hresend
    · have hfresh : s.prog.workResend = false := by simpa using hresend
      have hready : s.prog.workReady = true := by
        simp only [Prog.workDue, hfresh, Bool.or_false, Bool.and_eq_true] at hdue
        exact hdue.2
      have hcalls : (step V cfg s i).2.calls =
          (serve V cfg s.prog i.event ⟨s.mem, i.faults⟩).calls := calls_step s i
      by_cases hdone : ∃ r, (serve V cfg s.prog i.event ⟨s.mem, i.faults⟩).out = .done r
      · obtain ⟨r, hr⟩ := hdone
        obtain ⟨hprog, hout⟩ := step_of_done hr
        rw [hserve] at hr hcalls
        rcases hp.of_due hdue hfresh with hw | hw
        · obtain ⟨ok, m, hc, rfl⟩ := done_step_erase hdue hfresh hw hr
          exact .erase hw hready hfresh ok _ m hout hprog (hcalls.trans hc) hdue
        · obtain ⟨ok, rfl, hc⟩ := done_step_check hdue hfresh hw hr
          exact .check hw hready hfresh ok hout hprog (hcalls ▸ hc) hdue
      · refine .lost (fun resp hresp => hdone ?_) hdue hfresh
        simp only [step] at hresp
        revert hresp
        rcases serve V cfg s.prog i.event ⟨s.mem, i.faults⟩ with ⟨out, w, calls⟩
        cases out with
        | done r => exact fun _ => ⟨r, rfl⟩
        | cut => exact fun h => (by cases h)
        | trap => exact fun h => (by cases h)
  · have hdue' : s.prog.workDue s.prog.workVia = false := by simpa using hdue
    have hpure : s.prog.step V cfg now = pure (s.prog, []) := by
      simp only [Prog.step, hdue', Bool.not_false, if_true]
    have hs := step_of_pure (hserve.trans hpure)
    exact .idle (by rw [hs]) (by rw [hs]) (by rw [hs]) hdue'

theorem tracked_work (hg : Geometry cfg) {s : State} {i : Input} {now : ℕ} {j : Job}
    (hi : i.event = .step now) (hr : InRegion cfg s.prog) (hp : s.prog.Paced)
    (ht : Tracked cfg s.prog j) :
    Tracked cfg (step V cfg s i).1.prog (j.after (Trace.entry (step V cfg) s i)) := by
  have hunit (hdue : s.prog.workDue s.prog.workVia = true) (hfresh : s.prog.workResend = false) :
      DoesUnit (Trace.entry (step V cfg) s i) := by
    refine ⟨?_, hdue, hfresh⟩
    rw [Trace.entry_event, hi]
    rfl
  simp only [Job.after, Trace.entry_event, Trace.entry_label, hi]
  cases stepCase hi hp with
  | idle hout hprog hcalls hdue =>
    have hno : ¬ DoesUnit (Trace.entry (step V cfg) s i) := fun h => by
      simp [DoesUnit, hdue] at h
    rw [hout, hprog]
    simp only [if_neg hno]
    exact ht
  | again hout hprog hcalls hne hresend =>
    have hno : ¬ DoesUnit (Trace.entry (step V cfg) s i) := by
      intro h
      exact absurd (hresend.symm.trans h.2.2) (by decide)
    rw [hout, hprog]
    simp only [if_neg hno]
    exact (tracked_resend (ht hne) now hresend).1
  | lost hout hdue hfresh =>
    rw [step_lost hout]
    exact .of_none rfl
  | erase hw hready hfresh ok m m' hout hprog hcalls hdue =>
    rw [hout, hprog]
    simp only [if_pos (hunit hdue hfresh), hcalls]
    exact tracked_erase hg hr (ht (by simp [hw])) hw hready hfresh now ok m m'
  | check hw hready hfresh ok hout hprog hcalls hdue =>
    rw [hout, hprog]
    simp only [if_pos (hunit hdue hfresh)]
    exact tracked_check (ht (by simp [hw])) hw hfresh now hcalls

theorem tracked_endSession (p : Prog) (j : Job) : Tracked cfg p.endSession j := .of_none rfl

theorem tracked_remoteDropped {p : Prog} {j : Job} (ht : Tracked cfg p j) :
    Tracked cfg p.remoteDropped j := by
  simp only [Prog.remoteDropped]
  exact .ite (.of_none rfl) (.ite (tracked_endSession _ j) (ht.of_gate rfl))

theorem tracked_netUp {p : Prog} {j : Job} (ht : Tracked cfg p j) (now : ℕ) :
    Tracked cfg (p.netUp now) j := .ite (ht.of_gate rfl) ht

theorem tracked_cancelReset {p : Prog} {j : Job} (ht : Tracked cfg p j) :
    Tracked cfg p.cancelReset j := .ite (ht.of_gate rfl) ht

/-- A routine in progress holds the session: the tick stamps it as heard, and nothing expires. -/
theorem tick_of_work (p : Prog) (now : ℕ) (hne : p.work ≠ .none) :
    p.tick cfg now = { p with clock := now }.stamp now := by
  have hheard (q : Prog) (via : Via) (hq : q.lastRxUs = now ∧ q.heard = true) :
      q.heardVia via now = q := by
    obtain ⟨hl, hh⟩ := hq
    simp only [Prog.heardVia]
    split
    · simp only [Prog.stamp]
      rw [← hl, ← hh]
    · rfl
  have hzero : elapsed now now = 0 := by simp [elapsed]
  have hw : (if ({ p with clock := now } : Prog).work ≠ .none then
      ({ p with clock := now } : Prog).stamp now else { p with clock := now }) =
      ({ p with clock := now } : Prog).stamp now := if_pos hne
  simp only [Prog.tick]
  rw [hw, hheard _ .net ⟨rfl, rfl⟩, ite_self]
  simp [Prog.stamp, hzero, s3ServerUs]

theorem tracked_tick {p : Prog} {j : Job} (ht : Tracked cfg p j) (now : ℕ) :
    Tracked cfg (p.tick cfg now) j := by
  unfold Prog.tick
  extract_lets p₁ p₂ p₃ wait p₄
  have h₁ : Tracked cfg p₁ j := ht.of_gate rfl
  have h₂ : Tracked cfg p₂ j := .ite (h₁.of_gate rfl) h₁
  have h₃ : Tracked cfg p₃ j := .ite (h₂.of_gate (gate_heardVia _ _ _)) h₂
  have h₄ : Tracked cfg p₄ j := .ite (h₃.of_gate rfl) h₃
  exact .ite (tracked_endSession p₄ j) h₄

/-- Every step of a run keeps the agreement. -/
theorem tracked_step (hg : Geometry cfg) {s : State} {i : Input} {j : Job}
    (hr : InRegion cfg s.prog) (hp : s.prog.Paced) (ht : Tracked cfg s.prog j) :
    Tracked cfg (step V cfg s i).1.prog (j.after (Trace.entry (step V cfg) s i)) := by
  -- the events that only keep the books
  have hbooks {p' : Prog} (hserve : serve V cfg s.prog i.event = pure (p', []))
      (h : Tracked cfg p' (j.after (Trace.entry (step V cfg) s i))) :
      Tracked cfg (step V cfg s i).1.prog (j.after (Trace.entry (step V cfg) s i)) := by
    have hprog : (step V cfg s i).1.prog = p' := by rw [step_of_pure hserve]
    rw [hprog]
    exact h
  have hother {p' : Prog} (hserve : serve V cfg s.prog i.event = pure (p', []))
      (hunseen : j.after (Trace.entry (step V cfg) s i) = j.answered i.event
        (step V cfg s i).2.out) (h : Tracked cfg p' j) :
      Tracked cfg (step V cfg s i).1.prog (j.after (Trace.entry (step V cfg) s i)) := by
    refine hbooks hserve ?_
    rw [hunseen, step_of_pure hserve]
    have hsame : j.answered i.event (.done []) = j := by
      simp only [Job.answered]
      split
      · exact if_neg (by simp [pending, Uds.negative])
      · rfl
    rw [hsame]
    exact h
  cases hi : i.event with
  | handle req draw => exact tracked_request (by rw [hi]; rfl) ht
  | serveRemote req functional draw => exact tracked_request (by rw [hi]; rfl) ht
  | step now => exact tracked_work hg hi hr hp ht
  | remoteSent =>
    refine hbooks (by rw [hi]; rfl) ?_
    have hacked := (ht.of_gate (show ({ s.prog with remote := s.prog.remote.sent } : Prog).gate =
      s.prog.gate from rfl)).acknowledged false
    simp only [Job.after, Trace.entry_event, hi]
    exact hacked
  | pushSent =>
    refine hbooks (by rw [hi]; rfl) ?_
    simp only [Job.after, Trace.entry_event, hi]
    exact ht.acknowledged true
  | workLeft =>
    refine hbooks (by rw [hi]; rfl) ?_
    simp only [Job.after, Trace.entry_event, hi]
    exact ht.workLeft
  | workLost =>
    refine hbooks (by rw [hi]; rfl) ?_
    simp only [Job.after, Trace.entry_event, hi]
    exact ht.workLost
  | remoteDropped => exact hother (by rw [hi]; rfl) (by simp only [Job.after, Trace.entry_event, Trace.entry_label, hi]) (tracked_remoteDropped ht)
  | netUp now => exact hother (by rw [hi]; rfl) (by simp only [Job.after, Trace.entry_event, Trace.entry_label, hi]) (tracked_netUp ht now)
  | heard now =>
    exact hother (by rw [hi]; rfl) (by simp only [Job.after, Trace.entry_event, Trace.entry_label, hi]) (ht.of_gate (gate_heardVia _ _ _))
  | tick now => exact hother (by rw [hi]; rfl) (by simp only [Job.after, Trace.entry_event, Trace.entry_label, hi]) (tracked_tick ht now)
  | cancelReset => exact hother (by rw [hi]; rfl) (by simp only [Job.after, Trace.entry_event, Trace.entry_label, hi]) (tracked_cancelReset ht)
  | reset handoff =>
    refine hother (by rw [hi]; rfl) (by simp only [Job.after, Trace.entry_event, Trace.entry_label, hi]) (.of_none ?_)
    cases handoff with
    | none => rfl
    | some h => rfl

/-! ## Runs -/

/-- What a step of a run owes the routine protocol, given the steps before it. -/
structure Paces (cfg : Config) (hist : List (Trace.Entry State Input Label))
    (x : Trace.Entry State Input Label) : Prop where
  /-- A unit runs only behind a response that was confirmed. -/
  confirmed : DoesUnit x → (Job.of hist).fate = .confirmed
  /-- A check is one unit, and each erase begins behind the erases before it. -/
  once : DoesUnit x → (x.before.prog.work = .check → (Job.of hist).units = 0) ∧
    ∀ c ∈ (Job.of hist).calls, ∀ c' ∈ x.label.calls, c.addr + c.size ≤ c'.addr
  /-- A lost response is said again, a bounded number of times; then the routine ends. -/
  again : x.event.event.isStep = true → x.before.prog.work ≠ .none → (Job.of hist).fate = .lost →
    x.label.calls = [] ∧
      if (Job.of hist).resent < workResendMax then x.label.out = .done (Job.of hist).said
      else x.after.prog.work = .none ∨ x.after.prog.work = .answer ∧
        x.label.out = .done (Uds.negative 0x31 nrcGeneralProgrammingFailure)
  bounded : x.before.prog.work ≠ .none → (Job.of hist).resent ≤ workResendMax
  /-- The session does not expire while the routine is in progress. -/
  held : ∀ now, x.event.event = .tick now → x.before.prog.work ≠ .none →
    x.after.prog = { x.before.prog with clock := now, lastRxUs := now, heard := true }
  /-- A positive answer stands for units that all succeeded. -/
  earned : x.event.event.isStep = true → ∀ resp, x.label.out = .done resp →
    Earned cfg (Job.of (hist ++ [x])) resp

/-- A step that hands something over leaves a routine in progress. -/
theorem work_of_said {s : State} {i : Input} {now : ℕ} {resp : List UInt8}
    (hc : StepCase V cfg s i now) (ho : (step V cfg s i).2.out = .done resp) (hne : resp ≠ []) :
    (step V cfg s i).1.prog.work ≠ .none := by
  cases hc with
  | idle hout hprog hcalls hdue => exact absurd (Outcome.done.inj (ho.symm.trans hout)) hne
  | again hout hprog hcalls hwork hresend =>
    have hresp : resp = (s.prog.stamp now).resend.2 := Outcome.done.inj (ho.symm.trans hout)
    rw [hprog]
    rw [hresp] at hne
    revert hne
    have hwork' : (s.prog.stamp now).work ≠ .none := hwork
    simp only [Prog.resend]
    split
    · split
      · exact fun h => absurd rfl h
      · exact fun _ => hwork'
    · split
      · exact fun _ => nofun
      · exact fun _ => hwork'
  | lost hout hdue hfresh => exact absurd ho (hout resp)
  | erase hw hready hfresh ok m m' hout hprog hcalls hdue =>
    rw [hprog]
    simp only [Prog.erasedUnit]
    split
    · exact nofun
    · split
      · simp [Prog.pendingOut, Prog.opened, Prog.stamp, hw]
      · exact nofun
  | check hw hready hfresh ok hout hprog hcalls hdue =>
    rw [hprog]
    exact nofun

theorem said_after {j : Job} {x : Trace.Entry State Input Label} {now : ℕ} {resp : List UInt8}
    (hi : x.event.event = .step now) (ho : x.label.out = .done resp) (hne : resp ≠ []) :
    (j.after x).said = resp := by
  simp only [Job.after, hi, ho, Job.speak, if_neg hne]
  split <;> rfl

theorem earned_step {s : State} {i : Input} {now : ℕ} {j : Job} {resp : List UInt8}
    (hi : i.event = .step now) (hp : s.prog.Paced) (ho : (step V cfg s i).2.out = .done resp)
    (ht : Tracked cfg (step V cfg s i).1.prog (j.after (Trace.entry (step V cfg) s i))) :
    Earned cfg (j.after (Trace.entry (step V cfg) s i)) resp := by
  by_cases hnil : resp = []
  · rw [hnil]
    exact .of_ne (by simp [routineRsp]) (by simp [routineRsp])
  have htracks := ht (work_of_said (stepCase hi hp) ho hnil)
  have hsaid := htracks.said
  rw [said_after (by rw [Trace.entry_event, hi]) ho hnil] at hsaid
  by_cases hans : (step V cfg s i).1.prog.work = .answer
  · have hprogress := htracks.progress
    simp only [Progress, Prog.gate, hans] at hprogress hsaid
    rw [hsaid]
    exact hprogress
  · have hpend : resp = pending := hsaid.trans (if_neg hans)
    rw [hpend]
    exact .of_ne (by decide) (by decide)

theorem Tiles.le {a b : ℕ} {cs : List Call} (h : Tiles cfg a b cs) : a ≤ b := by
  induction cs generalizing a with
  | nil => exact Nat.le_of_eq h
  | cons c cs ih =>
    obtain ⟨-, -, -, -, hrest⟩ := h
    have := ih hrest
    omega

/-- A call of a tiling ends where the tiling ends, or before. -/
theorem Tiles.mem_le {a b : ℕ} {cs : List Call} (h : Tiles cfg a b cs) {c : Call} (hc : c ∈ cs) :
    c.addr + c.size ≤ b := by
  induction cs generalizing a with
  | nil => simp at hc
  | cons c' cs ih =>
    obtain ⟨-, haddr, -, -, hrest⟩ := h
    rcases List.mem_cons.mp hc with rfl | hc
    · rw [haddr]
      exact hrest.le
    · exact ih hrest hc

theorem once_step {s : State} {i : Input} {now : ℕ} {j : Job} (hi : i.event = .step now)
    (hp : s.prog.Paced) (ht : Tracked cfg s.prog j)
    (hdue : s.prog.workDue s.prog.workVia = true) (hfresh : s.prog.workResend = false) :
    (s.prog.work = .check → j.units = 0) ∧
      ∀ c ∈ j.calls, ∀ c' ∈ (step V cfg s i).2.calls, c.addr + c.size ≤ c'.addr := by
  rcases hp.of_due hdue hfresh with hw | hw
  · have hprogress : Progress cfg s.prog.gate j := (ht (by simp [hw])).progress
    simp only [Progress, Prog.gate, hw] at hprogress
    obtain ⟨addr, size, -, htiles, -, -⟩ := hprogress
    refine ⟨fun h => by simp [hw] at h, fun c hc c' hc' => ?_⟩
    have hserve : serve V cfg s.prog i.event = s.prog.step V cfg now := by
      rw [hi]
      rfl
    rw [calls_step, hserve] at hc'
    obtain ⟨ok, m, hcalls⟩ := calls_step_erase hdue hfresh hw ⟨s.mem, i.faults⟩
    rw [hcalls] at hc'
    rw [List.mem_singleton.mp hc']
    exact htiles.mem_le hc
  · have hprogress : Progress cfg s.prog.gate j := (ht (by simp [hw])).progress
    simp only [Progress, Prog.gate, hw] at hprogress
    obtain ⟨-, hunits, hnone⟩ := hprogress
    refine ⟨fun _ => hunits, fun c hc => ?_⟩
    simp [hnone] at hc

theorem isStep_iff {e : Event} : e.isStep = true ↔ ∃ now, e = .step now := by
  cases e <;> simp [Event.isStep]

theorem paces_step (hg : Geometry cfg) {s : State} {i : Input}
    {hist : List (Trace.Entry State Input Label)} (hr : InRegion cfg s.prog) (hp : s.prog.Paced)
    (ht : Tracked cfg s.prog (Job.of hist)) :
    Paces cfg hist (Trace.entry (step V cfg) s i) where
  confirmed := by
    intro hunit
    obtain ⟨-, hdue, hfresh⟩ := hunit
    simp only [Trace.entry_before, Prog.workDue, Bool.and_eq_true, bne_iff_ne] at hdue hfresh
    obtain ⟨⟨hne, -⟩, hready⟩ := hdue
    rw [hfresh, Bool.or_false] at hready
    simpa [show s.prog.workReady = _ from (ht hne).ready] using hready
  once := by
    intro hunit
    obtain ⟨hstep, hdue, hfresh⟩ := hunit
    obtain ⟨now, hi⟩ := isStep_iff.mp hstep
    exact once_step hi hp ht hdue hfresh
  again := by
    intro hstep hne hlost
    rw [Trace.entry_event] at hstep
    obtain ⟨now, hi⟩ := isStep_iff.mp hstep
    have hresend : s.prog.workResend = true := by
      rw [show s.prog.workResend = _ from (ht hne).resend]
      simpa using hlost
    have hdue : s.prog.workDue s.prog.workVia = true := by
      have hne' : s.prog.work ≠ .none := hne
      simp [Prog.workDue, hresend, hne']
    cases stepCase hi hp with
    | idle _ _ _ hidle => exact absurd (hdue.symm.trans hidle) (by decide)
    | again hout hprog hcalls _ _ =>
      refine ⟨hcalls, ?_⟩
      rw [Trace.entry_label, Trace.entry_after, hout, hprog]
      have hsaid := (tracked_resend (ht hne) now hresend).2
      split
      · rename_i hmax
        rw [if_pos hmax] at hsaid
        rw [hsaid]
      · rename_i hmax
        rw [if_neg hmax] at hsaid
        rcases hsaid with hnone | ⟨hans, hresp⟩
        · exact .inl hnone
        · exact .inr ⟨hans, by rw [hresp]⟩
    | lost _ _ hfresh => exact absurd (hresend.symm.trans hfresh) (by decide)
    | erase _ _ hfresh => exact absurd (hresend.symm.trans hfresh) (by decide)
    | check _ _ hfresh => exact absurd (hresend.symm.trans hfresh) (by decide)
  bounded hne := (ht hne).bound
  held := by
    intro now hi hne
    have hserve : serve V cfg s.prog i.event = pure (s.prog.tick cfg now, []) := by
      rw [show i.event = .tick now from hi]
      rfl
    rw [Trace.entry_after, step_of_pure hserve]
    exact tick_of_work s.prog now hne
  earned := by
    intro hstep resp ho
    obtain ⟨now, hi⟩ := isStep_iff.mp hstep
    rw [Job.of_snoc]
    exact earned_step hi hp ho (tracked_step hg hr hp ht)

end BloblyEmb.Boot
