import Mathlib.Algebra.Order.Ring.Nat
import BloblyEmb.Uds.Application
import BloblyEmb.Lib.Trace

/-!
# The lockout of security access

Which steps of the diagnostic server count wrong keys, start the lockout and let it run. `touches`
sorts the requests: a request leaves the attempt state alone, hands out a seed while no lockout
runs, or has one key checked. What an observer of the checked keys and of the clock knows is the
`Watch`; the server's counters and its delay follow it, as long as no reset finds a delay that a
hand-over armed and no tick has started.
-/
namespace BloblyEmb.Uds.Application

variable {ε : Type} {h : Hooks ε} {cfg : Config}

/-! ## What a request does to the attempt state -/

namespace HookCall

/-- A key was checked. -/
def isKey : HookCall → Bool
  | .key _ _ => true
  | _ => false

end HookCall

/-- No key was checked. -/
def Reply.Quiet (r : Reply) : Prop := ∀ c ∈ r.calls, c.isKey = false

@[simp] theorem Reply.quiet_silent : Reply.silent.Quiet := nofun
@[simp] theorem Reply.quiet_say (bytes : List UInt8) : (Reply.say bytes).Quiet := nofun
@[simp] theorem Reply.quiet_negative (sid nrc : UInt8) : (Reply.negative sid nrc).Quiet := nofun
@[simp] theorem Reply.quiet_mk (stores : List (ℕ × UInt8)) (len : ℕ) :
    Reply.Quiet { stores := stores, len := len } := nofun

@[simp] theorem Reply.quiet_suppressible (sub : UInt8) (bytes : List UInt8) :
    (Reply.suppressible sub bytes).Quiet := by
  simp only [Reply.suppressible]
  split <;> simp

@[simp] theorem Reply.quiet_calling (c : HookCall) (r : Reply) :
    (r.calling c).Quiet ↔ c.isKey = false ∧ r.Quiet := by
  simp [Reply.Quiet, Reply.calling]

@[simp] theorem Reply.quiet_behind (stores : List (ℕ × UInt8)) (r : Reply) :
    (r.behind stores).Quiet ↔ r.Quiet := Iff.rfl

namespace Server

/-- Counters, delay and clock are as they were. -/
structure SameCounts (s s' : Server ε) : Prop where
  failed : s'.saFailed = s.saFailed
  until_eq : s'.saDelayUntil = s.saDelayUntil
  arm : s'.saArmDelay = s.saArmDelay
  now : s'.nowUs = s.nowUs

/-- The attempt state is as it was; an outstanding seed may be void. -/
structure Apart (s s' : Server ε) : Prop extends SameCounts s s' where
  level : s'.saLevel = s.saLevel ∨ s'.saLevel = 0

namespace Apart
variable {s s' s'' : Server ε}

theorem refl (s : Server ε) : Apart s s := ⟨⟨rfl, rfl, rfl, rfl⟩, .inl rfl⟩

theorem trans (h₁ : Apart s s') (h₂ : Apart s' s'') : Apart s s'' where
  failed := h₂.failed.trans h₁.failed
  until_eq := h₂.until_eq.trans h₁.until_eq
  arm := h₂.arm.trans h₁.arm
  now := h₂.now.trans h₁.now
  level := by
    rcases h₂.level with hl | hl
    · rw [hl]
      exact h₁.level
    · exact .inr hl

end Apart

theorem apart_restoreDtcSetting (h : Hooks ε) (s : Server ε) :
    Apart s (s.restoreDtcSetting h) := by
  simp only [restoreDtcSetting]
  split
  · exact ⟨⟨rfl, rfl, rfl, rfl⟩, .inl rfl⟩
  · exact .refl s

theorem apart_enterSession (h : Hooks ε) (s : Server ε) (session : UInt8) :
    Apart s (s.enterSession h session) := by
  simp only [enterSession]
  split
  · refine Apart.trans ?_ (apart_restoreDtcSetting h _)
    exact ⟨⟨rfl, rfl, rfl, rfl⟩, .inr rfl⟩
  · exact ⟨⟨rfl, rfl, rfl, rfl⟩, .inr rfl⟩

/-- A service that has nothing to do with security access. -/
def Other (s : Server ε) (r : Server ε × Reply) : Prop := Apart s r.1 ∧ r.2.Quiet

namespace Other
variable {s : Server ε} {r : Reply}

theorem keep (hr : r.Quiet) : Other s (s, r) := ⟨.refl s, hr⟩

theorem of_same {s' : Server ε} (hr : r.Quiet)
    (hsame : (s'.saFailed, s'.saDelayUntil, s'.saArmDelay, s'.nowUs, s'.saLevel) =
      (s.saFailed, s.saDelayUntil, s.saArmDelay, s.nowUs, s.saLevel)) : Other s (s', r) := by
  simp only [Prod.mk.injEq] at hsame
  obtain ⟨hf, hu, ha, hn, hl⟩ := hsame
  exact ⟨⟨⟨hf, hu, ha, hn⟩, .inl hl⟩, hr⟩

end Other

theorem other_handOff (s : Server ε) (req : List UInt8) (sub : UInt8) :
    Other s (s.handOff h req sub) := by
  simp only [handOff]
  split
  · exact .keep (by simp)
  split
  · exact .of_same (by simp) rfl
  split
  · exact .of_same (by simp [HookCall.isKey]) rfl
  · exact .keep (by simp [HookCall.isKey])

theorem other_sessionControl (s : Server ε) (req : List UInt8) :
    Other s (s.sessionControl h cfg req) := by
  simp only [sessionControl]
  split_ifs
  · exact .keep (by simp)
  · exact .keep (by simp)
  · exact .keep (by simp)
  · exact .keep (by simp)
  · exact .keep (by simp)
  · exact other_handOff s req _
  · exact ⟨apart_enterSession h s _, by simp⟩

theorem other_ecuReset (s : Server ε) (req : List UInt8) : Other s (s.ecuReset req) := by
  simp only [ecuReset]
  split_ifs
  · exact .keep (by simp)
  · exact .keep (by simp)
  · exact .keep (by simp)
  · exact .of_same (by simp) rfl

theorem other_communicationControl (s : Server ε) (req : List UInt8) :
    Other s (s.communicationControl cfg req) := by
  simp only [communicationControl]
  split_ifs
  · exact .keep (by simp)
  · exact .keep (by simp)
  · exact .keep (by simp)
  · exact .keep (by simp)
  · exact .keep (by simp)
  · exact .of_same (by simp) rfl

theorem other_testerPresent (s : Server ε) (req : List UInt8) : Other s (s.testerPresent req) := by
  simp only [testerPresent]
  split_ifs <;> exact .keep (by simp)

theorem other_readDid (s : Server ε) (req : List UInt8) : Other s (s.readDid req) := by
  simp only [readDid]
  split
  · exact .keep (by simp)
  split
  · exact .keep (by simp)
  split_ifs <;> exact .keep (by simp)

theorem other_writeDid (s : Server ε) (req : List UInt8) : Other s (s.writeDid h req) := by
  simp only [writeDid]
  split
  · exact .keep (by simp)
  split
  · exact .keep (by simp)
  split
  · exact .keep (by simp)
  split
  · exact .keep (by simp)
  split
  · exact .keep (by simp)
  split
  · split
    · exact .keep (by simp)
    split
    · exact .of_same (by simp [HookCall.isKey]) rfl
    · exact .of_same (by simp [HookCall.isKey]) rfl
  · exact .of_same (by simp) rfl

theorem quiet_snapshotIds (mem : MemoryOps ε) (snapshot : ε → ℕ → Option ℕ → List UInt8 × ℤ)
    (s : Server ε) : (s.snapshotIds mem snapshot).Quiet := by
  simp only [snapshotIds]
  split <;> simp

theorem quiet_snapshotRecord (snapshot : ε → ℕ → Option ℕ → List UInt8 × ℤ) (s : Server ε)
    (i : ℕ) (head : List (ℕ × UInt8)) : (s.snapshotRecord snapshot i head).Quiet := by
  simp only [snapshotRecord]
  split_ifs <;> simp

theorem quiet_extendedRecords (extended : ε → ℕ → UInt8 → ℕ → List UInt8 × ℤ) (s : Server ε)
    (i : ℕ) (stores : List (ℕ × UInt8)) (o : ℕ) (recs : List UInt8) :
    (s.extendedRecords extended i stores o recs).Quiet := by
  induction recs generalizing stores o with
  | nil => simp [extendedRecords]
  | cons r rs ih =>
    simp only [extendedRecords]
    split_ifs
    · simp
    · exact ih _ _
    · exact ih _ _

theorem quiet_dtcRecords (mem : MemoryOps ε) (s : Server ε) (sub : UInt8) (req : List UInt8) :
    (s.dtcRecords h cfg mem sub req).Quiet := by
  simp only [dtcRecords]
  split
  · simp
  split
  · simp
  split
  · split
    · simp
    · exact quiet_snapshotRecord _ s _ _
  · split
    · simp
    · exact quiet_extendedRecords _ s _ _ _ _

theorem quiet_dtcsByMask (mem : MemoryOps ε) (s : Server ε) (sub : UInt8) (req : List UInt8) :
    (s.dtcsByMask cfg mem sub req).Quiet := by
  simp only [dtcsByMask]
  split_ifs <;> simp

theorem other_readDtcs (mem : MemoryOps ε) (s : Server ε) (req : List UInt8) :
    Other s (s.readDtcs h cfg mem req) := by
  simp only [readDtcs]
  split
  · exact .keep (by simp)
  split
  · exact .keep (by simp)
  split
  · exact .keep (by simp)
  split
  · split
    · exact .keep (by simp)
    · exact .keep (by simp [HookCall.isKey, quiet_snapshotIds])
  split
  · exact .keep (by simp [HookCall.isKey, quiet_dtcRecords])
  · exact .keep (by simp [HookCall.isKey, quiet_dtcsByMask])

theorem other_clearDtcs (mem : MemoryOps ε) (s : Server ε) (req : List UInt8) :
    Other s (s.clearDtcs mem req) := by
  simp only [clearDtcs]
  split_ifs
  · exact .keep (by simp)
  · exact .of_same (by simp [HookCall.isKey]) rfl
  · exact .of_same (by simp [HookCall.isKey]) rfl

theorem other_dtcSetting (set : ε → Bool → ε) (s : Server ε) (req : List UInt8) :
    Other s (s.dtcSetting set req) := by
  simp only [dtcSetting]
  split_ifs
  · exact .keep (by simp)
  · exact .keep (by simp)
  · exact .of_same (by simp [HookCall.isKey]) rfl

/-- The answer to a wrong key at the index `i` of the levels. -/
def AfterWrong (cfg : Config) (s s' : Server ε) (i : ℕ) : Prop :=
  if s.failed i + 1 ≥ cfg.saMaxAttempts then
    s'.saFailed = s.saFailed.setIfInBounds i 0 ∧ s'.saDelayUntil = u64 (s.nowUs + cfg.saDelay)
  else
    s'.saFailed = s.saFailed.setIfInBounds i (s.failed i + 1) ∧ s'.saDelayUntil = s.saDelayUntil

/-- What a request does to the attempt state, and the hooks it calls. -/
inductive Touches (cfg : Config) (s s' : Server ε) (r : Reply) : Prop
  | apart (hapart : Apart s s') (hquiet : r.Quiet)
  | seed (hopen : s.lockedOut = false) (hsame : SameCounts s s') (hquiet : r.Quiet)
  | wrong (level : UInt8) (hlow : 0 < level.toNat) (hhigh : level.toNat ≤ maxSecurityLevel)
      (hseed : s.saLevel = level) (hcalls : r.calls = [.key level false]) (hvoid : s'.saLevel = 0)
      (hafter : AfterWrong cfg s s' (level.toNat - 1)) (harm : s'.saArmDelay = s.saArmDelay)
      (hnow : s'.nowUs = s.nowUs)
  | right (level : UInt8) (hlow : 0 < level.toNat) (hhigh : level.toNat ≤ maxSecurityLevel)
      (hseed : s.saLevel = level) (hcalls : r.calls = [.key level true]) (hvoid : s'.saLevel = 0)
      (hfailed : s'.saFailed = s.saFailed.setIfInBounds (level.toNat - 1) 0)
      (huntil : s'.saDelayUntil = s.saDelayUntil) (harm : s'.saArmDelay = s.saArmDelay)
      (hnow : s'.nowUs = s.nowUs)

/-- A request takes no time. -/
theorem Touches.now {s s' : Server ε} {r : Reply} (ht : Touches cfg s s' r) :
    s'.nowUs = s.nowUs := by
  cases ht with
  | apart hapart hquiet => exact hapart.now
  | seed hopen hsame hquiet => exact hsame.now
  | wrong level hlow hhigh hseed hcalls hvoid hafter harm hnow => exact hnow
  | right level hlow hhigh hseed hcalls hvoid hfailed huntil harm hnow => exact hnow

theorem Other.touches {s : Server ε} {r : Server ε × Reply} (hr : Other s r) :
    Touches cfg s r.1 r.2 := .apart hr.1 hr.2

theorem touches_requestSeed (ops : SecurityOps ε) (s : Server ε) (level sub : UInt8) :
    Touches cfg s (s.requestSeed ops level sub).1 (s.requestSeed ops level sub).2 := by
  simp only [requestSeed]
  by_cases hlocked : s.lockedOut = true
  · rw [if_pos hlocked]
    exact .apart (.refl s) (by simp)
  · rw [if_neg hlocked]
    have hopen : s.lockedOut = false := by simpa using hlocked
    split_ifs
    · exact .seed hopen ⟨rfl, rfl, rfl, rfl⟩ (by simp)
    · exact .seed hopen ⟨rfl, rfl, rfl, rfl⟩ (by simp [HookCall.isKey])
    · exact .seed hopen ⟨rfl, rfl, rfl, rfl⟩ (by simp [HookCall.isKey])
    · exact .seed hopen ⟨rfl, rfl, rfl, rfl⟩ (by simp [HookCall.isKey])

@[simp] theorem calls_suppressible (sub : UInt8) (bytes : List UInt8) :
    (Reply.suppressible sub bytes).calls = [] := by
  simp only [Reply.suppressible]
  split <;> rfl

theorem touches_sendKey (ops : SecurityOps ε) (s : Server ε) {level : UInt8} (req : List UInt8)
    (hlow : 0 < level.toNat) (hhigh : level.toNat ≤ maxSecurityLevel) :
    Touches cfg s (s.sendKey ops cfg level req).1 (s.sendKey ops cfg level req).2 := by
  simp only [sendKey]
  split
  · exact .apart (.refl s) (by simp)
  split
  · exact .apart (.refl s) (by simp)
  rename_i hseed
  have hseed : s.saLevel = level := by simpa using hseed
  split
  · split
    · rename_i hlast
      refine .wrong level hlow hhigh hseed rfl rfl ?_ rfl rfl
      exact (if_pos hlast).mpr ⟨rfl, rfl⟩
    · rename_i hmore
      refine .wrong level hlow hhigh hseed rfl rfl ?_ rfl rfl
      exact (if_neg hmore).mpr ⟨rfl, rfl⟩
  · exact .right level hlow hhigh hseed (by simp [Reply.calling]) rfl rfl rfl rfl rfl

/-- The level of a sub-function in the range the service checks is not 0. -/
theorem level_pos {sub : UInt8} (hsub : sub &&& 0x7F ≠ 0) :
    0 < (((sub &&& 0x7F) + 1) / 2).toNat := by
  have hle : (sub &&& 0x7F).toNat ≤ 127 := by
    rw [UInt8.toNat_and]
    exact Nat.and_le_right
  have hne : (sub &&& 0x7F).toNat ≠ 0 := fun h => hsub (UInt8.toNat_inj.mp h)
  rw [UInt8.toNat_div, UInt8.toNat_add]
  simp only [UInt8.reduceToNat]
  omega

theorem touches_securityAccess (ops : SecurityOps ε) (s : Server ε) (req : List UInt8) :
    Touches cfg s (s.securityAccess ops cfg req).1 (s.securityAccess ops cfg req).2 := by
  simp only [securityAccess]
  split
  · exact .apart (.refl s) (by simp)
  split
  · exact .apart (.refl s) (by simp)
  rename_i hlevel
  simp only [not_or, Nat.not_lt] at hlevel
  split
  · exact touches_requestSeed ops s _ _
  · exact touches_sendKey ops s req (level_pos hlevel.1) hlevel.2.1

theorem touches_serve (s : Server ε) (sid : UInt8) (req : List UInt8) :
    Touches cfg s (s.serve h cfg sid req).1 (s.serve h cfg sid req).2 := by
  refine serve_cases (P := fun _ f => Touches cfg s (f req).1 (f req).2)
    h cfg s ?_ ?_ ?_ ?_ ?_ ?_ ?_ ?_ ?_ ?_ ?_ sid
  · exact (other_testerPresent s req).touches
  · exact (other_sessionControl s req).touches
  · exact (other_ecuReset s req).touches
  · exact (other_readDid s req).touches
  · exact fun ops _ => touches_securityAccess ops s req
  · exact fun mem _ => (other_clearDtcs mem s req).touches
  · exact fun mem _ => (other_readDtcs mem s req).touches
  · exact fun set _ => (other_dtcSetting set s req).touches
  · exact (other_communicationControl s req).touches
  · exact (other_writeDid s req).touches
  · exact fun sid => .apart (.refl s) (by simp)

/-- The stamp of a request touches nothing of the attempt state. -/
theorem Touches.of_stamped {s s' : Server ε} {r : Reply} (ht : Touches cfg s.stamped s' r) :
    Touches cfg s s' r := by
  have hcounts (h : SameCounts s.stamped s') : SameCounts s s' :=
    ⟨h.failed, h.until_eq, h.arm, h.now⟩
  cases ht with
  | apart hapart hquiet => exact .apart ⟨hcounts hapart.toSameCounts, hapart.level⟩ hquiet
  | seed hopen hsame hquiet => exact .seed hopen (hcounts hsame) hquiet
  | wrong level hlow hhigh hseed hcalls hvoid hafter harm hnow =>
    exact .wrong level hlow hhigh hseed hcalls hvoid hafter harm hnow
  | right level hlow hhigh hseed hcalls hvoid hfailed huntil harm hnow =>
    exact .right level hlow hhigh hseed hcalls hvoid hfailed huntil harm hnow

/-- Every request does one of these. -/
theorem touches_dispatch (s : Server ε) (req : List UInt8) :
    Touches cfg s (s.dispatch h cfg req).1 (s.dispatch h cfg req).2 := by
  have hstamped : Apart s s.stamped := ⟨⟨rfl, rfl, rfl, rfl⟩, .inl rfl⟩
  cases req with
  | nil => exact .apart (.refl s) (by simp [dispatch])
  | cons sid rest =>
    simp only [dispatch]
    split
    · exact .apart (.refl s) (by simp)
    split
    · exact .apart hstamped (by simp)
    split
    · exact .apart hstamped (by simp)
    split
    · exact .apart hstamped (by simp)
    split
    · exact .apart hstamped (by simp)
    · exact (touches_serve s.stamped sid (sid :: rest)).of_stamped

theorem touches_handleFunctional (s : Server ε) (req : List UInt8) :
    Touches cfg s (s.handleFunctional h cfg req).1 (s.handleFunctional h cfg req).2 := by
  simp only [handleFunctional]
  split
  · exact .apart ⟨⟨rfl, rfl, rfl, rfl⟩, .inl rfl⟩ (by simp)
  · have hd : Touches cfg s (s.dispatch h cfg req).1 (s.dispatch h cfg req).2 :=
      touches_dispatch s req
    split
    · -- the withheld answer has the calls of the answer
      cases hd with
      | apart hapart hquiet => exact .apart hapart hquiet
      | seed hopen hsame hquiet => exact .seed hopen hsame hquiet
      | wrong level hlow hhigh hseed hcalls hvoid hafter harm hnow =>
        exact .wrong level hlow hhigh hseed hcalls hvoid hafter harm hnow
      | right level hlow hhigh hseed hcalls hvoid hfailed huntil harm hnow =>
        exact .right level hlow hhigh hseed hcalls hvoid hfailed huntil harm hnow
    · exact hd

end Server

/-! ## The machine -/

/-- What happens to a server. A hand-over restarts the controller: a server of the same
configuration takes the place of this one, and takes back what was kept. -/
inductive Event (ε : Type)
  | handle (req : List UInt8)
  | handleFunctional (req : List UInt8)
  | tick (now : ℕ)
  | holdS3 (now : ℕ)
  | endSession
  | resetState
  | init (respCap : ℤ)
  | handOver (ctx : ε) (dids : List Did) (respCap : ℤ)

/-- A server after `init`. -/
def start (h : Hooks ε) (ctx : ε) (dids : List Did) (respCap : ℤ) : Server ε :=
  ({ ctx := ctx, dids := dids } : Server ε).init h respCap

def step (h : Hooks ε) (cfg : Config) (s : Server ε) : Event ε → Server ε × Reply
  | .handle req => s.handle h cfg req
  | .handleFunctional req => s.handleFunctional h cfg req
  | .tick now => (s.tick h cfg now, .silent)
  | .holdS3 now => (s.holdS3 now, .silent)
  | .endSession => (s.endSession h, .silent)
  | .resetState => (s.resetState h, .silent)
  | .init respCap => (s.init h respCap, .silent)
  | .handOver ctx dids respCap =>
    ((start h ctx dids respCap).restoreSecurity s.keptSecurity, .silent)

/-! ## What an observer knows -/

/-- The wrong keys of each level since its last right key or the last lockout it caused, and the
time since the last lockout, if there was one. -/
structure Watch where
  wrong : UInt8 → ℕ := fun _ => 0
  since : Option ℕ := none

namespace Watch

/-- A hook call is seen: the last wrong key that the limit allows starts a lockout. -/
def see (cfg : Config) (w : Watch) : HookCall → Watch
  | .key level false =>
    if w.wrong level + 1 ≥ cfg.saMaxAttempts.toNat then
      { wrong := Function.update w.wrong level 0, since := some 0 }
    else { w with wrong := Function.update w.wrong level (w.wrong level + 1) }
  | .key level true => { w with wrong := Function.update w.wrong level 0 }
  | _ => w

/-- Time passes. -/
def elapse (w : Watch) (t : ℕ) : Watch := { w with since := w.since.map (· + t) }

/-- One step of a run: the clock moves on, and some hooks are called. A hand-over starts the
clock again, so it adds nothing. -/
def after (cfg : Config) (w : Watch) (x : Trace.Entry (Server ε) (Event ε) Reply) : Watch :=
  x.label.calls.foldl (see cfg) (w.elapse (x.after.nowUs - x.before.nowUs))

/-- What the observer of a run knows. -/
def of (cfg : Config) (hist : List (Trace.Entry (Server ε) (Event ε) Reply)) : Watch :=
  hist.foldl (after cfg) {}

theorem of_snoc (cfg : Config) (hist : List (Trace.Entry (Server ε) (Event ε) Reply))
    (x : Trace.Entry (Server ε) (Event ε) Reply) :
    of cfg (hist ++ [x]) = (of cfg hist).after cfg x := List.foldl_concat ..

end Watch

/-- The step checks a key. -/
def ChecksKey (x : Trace.Entry (Server ε) (Event ε) Reply) : Prop :=
  ∃ c ∈ x.label.calls, c.isKey = true

/-- No key is checked until the delay of the last lockout has passed. -/
def KeepsLockout (cfg : Config) (hist : List (Trace.Entry (Server ε) (Event ε) Reply))
    (x : Trace.Entry (Server ε) (Event ε) Reply) : Prop :=
  ChecksKey x → ∀ t ∈ (Watch.of cfg hist).since, cfg.saDelay ≤ t

/-- The event puts the server back to power-on. -/
def Event.resets : Event ε → Bool
  | .resetState => true
  | .init _ => true
  | _ => false

/-- No reset finds a delay that is armed with no wrong key counting: such a delay was handed over
and waits for its first tick. And the clock stays the delay away from the end of its 64 bits. -/
structure Orderly (cfg : Config) (x : Trace.Entry (Server ε) (Event ε) Reply) : Prop where
  reset : x.event.resets = true → x.before.saArmDelay = true → x.before.anySaFailed = true
  clock : x.after.nowUs + cfg.saDelay < 2 ^ 64

/-! ## The server follows the observer -/

/-- Counters and delay agree with what an observer knows. -/
structure Follows (cfg : Config) (s : Server ε) (w : Watch) : Prop where
  wrong : ∀ level : UInt8, 0 < level.toNat → level.toNat ≤ maxSecurityLevel →
    w.wrong level = (s.failed (level.toNat - 1)).toNat
  below : ∀ i, s.failed i < cfg.saMaxAttempts
  locked : ∀ t ∈ w.since, t < cfg.saDelay → s.saLevel = 0 ∧
    (s.saArmDelay = true ∨ s.nowUs + (cfg.saDelay - t) ≤ s.saDelayUntil)

theorem saMaxAttempts_pos (cfg : Config) : 0 < cfg.saMaxAttempts := by
  simp only [Config.saMaxAttempts]
  split
  · decide
  · rename_i hne
    exact UInt8.pos_iff_ne_zero.mpr hne

theorem failed_setIfInBounds {s s' : Server ε} {i : ℕ} {n : UInt8} (hi : i < maxSecurityLevel)
    (hset : s'.saFailed = s.saFailed.setIfInBounds i n) (j : ℕ) :
    s'.failed j = if i = j then n else s.failed j := by
  simp only [Server.failed, hset]
  by_cases hij : i = j
  · subst hij
    rw [Vector.getElem?_setIfInBounds_self_of_lt hi, if_pos rfl]
    rfl
  · rw [Vector.getElem?_setIfInBounds_ne hij, if_neg hij]

theorem failed_congr {s s' : Server ε} (hf : s'.saFailed = s.saFailed) : s'.failed = s.failed := by
  ext i
  rw [Server.failed, Server.failed, hf]

namespace Watch

@[simp] theorem elapse_zero (w : Watch) : w.elapse 0 = w := by
  simp [elapse]

theorem mem_elapse {w : Watch} {d t : ℕ} : t ∈ (w.elapse d).since ↔ ∃ t₀ ∈ w.since, t₀ + d = t := by
  simp [elapse]

/-- Hooks other than the key check are not watched. -/
theorem foldl_see_quiet {calls : List HookCall} (w : Watch)
    (hquiet : ∀ c ∈ calls, c.isKey = false) : calls.foldl (see cfg) w = w := by
  induction calls with
  | nil => rfl
  | cons c cs ih =>
    have hc : w.see cfg c = w := by
      have := hquiet c (List.mem_cons_self ..)
      cases c with
      | key level ok => simp [HookCall.isKey] at this
      | _ => rfl
    rw [List.foldl_cons, hc]
    exact ih fun c' hc' => hquiet c' (List.mem_cons_of_mem _ hc')

end Watch

namespace Follows
variable {s s' : Server ε} {w : Watch}

/-- A running lockout is visible in the server. -/
theorem lockedOut (hw : Follows cfg s w) {t : ℕ} (ht : t ∈ w.since) (hlt : t < cfg.saDelay) :
    s.lockedOut = true := by
  simp only [Server.lockedOut, Bool.or_eq_true, decide_eq_true_eq]
  rcases (hw.locked t ht hlt).2 with harm | hle
  · exact .inl harm
  · right
    omega

/-- The clock moves, and a lockout that ran still does. -/
theorem moved (hw : Follows cfg s w) (hfailed : s'.saFailed = s.saFailed)
    (hlevel : s'.saLevel = s.saLevel ∨ s'.saLevel = 0)
    (hlock : s.lockedOut = true → s'.saArmDelay = true ∨
      s'.nowUs + cfg.saDelay ≤ s'.saDelayUntil ∨
      s'.saArmDelay = s.saArmDelay ∧ s'.saDelayUntil = s.saDelayUntil) :
    Follows cfg s' (w.elapse (s'.nowUs - s.nowUs)) where
  wrong level hlow hhigh := by
    rw [failed_congr hfailed]
    exact hw.wrong level hlow hhigh
  below i := by
    rw [failed_congr hfailed]
    exact hw.below i
  locked t ht hlt := by
    obtain ⟨t₀, ht₀, rfl⟩ := Watch.mem_elapse.mp ht
    have hlt₀ : t₀ < cfg.saDelay := by omega
    obtain ⟨hseed, hrun⟩ := hw.locked t₀ ht₀ hlt₀
    constructor
    · rcases hlevel with hl | hl
      · exact hl.trans hseed
      · exact hl
    · rcases hlock (hw.lockedOut ht₀ hlt₀) with harm | hle | ⟨harm, huntil⟩
      · exact .inl harm
      · right
        omega
      · rw [harm, huntil]
        rcases hrun with hrun | hrun
        · exact .inl hrun
        · right
          omega

/-- A request that leaves the attempt state alone. -/
theorem apart (hw : Follows cfg s w) (ha : s.Apart s') : Follows cfg s' w := by
  have := hw.moved ha.failed ha.level fun _ => .inr (.inr ⟨ha.arm, ha.until_eq⟩)
  rwa [ha.now, Nat.sub_self, Watch.elapse_zero] at this

/-- The key of a level was checked, right or wrong, and its counter set. -/
theorem checked (hw : Follows cfg s w) {level : UInt8} {n : UInt8} (hlow : 0 < level.toNat)
    (hhigh : level.toNat ≤ maxSecurityLevel)
    (hfailed : s'.saFailed = s.saFailed.setIfInBounds (level.toNat - 1) n)
    (hn : n < cfg.saMaxAttempts) (since : Option ℕ)
    (hlocked : ∀ t ∈ since, t < cfg.saDelay → s'.saLevel = 0 ∧
      (s'.saArmDelay = true ∨ s'.nowUs + (cfg.saDelay - t) ≤ s'.saDelayUntil)) :
    Follows cfg s' { wrong := Function.update w.wrong level n.toNat, since := since } where
  wrong level' hlow' hhigh' := by
    rw [failed_setIfInBounds (by omega) hfailed]
    by_cases heq : level' = level
    · subst heq
      simp
    · have hne : level.toNat - 1 ≠ level'.toNat - 1 := by
        intro h
        exact heq (UInt8.toNat_inj.mp (by omega))
      rw [if_neg hne]
      refine (Function.update_of_ne heq _ _).trans ?_
      exact hw.wrong level' hlow' hhigh'
  below i := by
    rw [failed_setIfInBounds (by omega) hfailed]
    split
    · exact hn
    · exact hw.below i
  locked := hlocked

end Follows

/-- While a lockout runs no seed is outstanding, so that no key is checked. -/
theorem not_checked {s : Server ε} {w : Watch} (hw : Follows cfg s w) {level : UInt8}
    (hlow : 0 < level.toNat) (hseed : s.saLevel = level) : ∀ t ∈ w.since, cfg.saDelay ≤ t := by
  intro t ht
  by_contra hlt
  have hzero := (hw.locked t ht (by omega)).1
  rw [hseed] at hzero
  simp [hzero] at hlow

/-- A request keeps the agreement, and checks no key while a lockout runs. -/
theorem follows_request {s s' : Server ε} {r : Reply} {w : Watch} (hw : Follows cfg s w)
    (ht : s.Touches cfg s' r) (hclock : s.nowUs + cfg.saDelay < 2 ^ 64) :
    Follows cfg s' (r.calls.foldl (Watch.see cfg) w) ∧
      ((∃ c ∈ r.calls, c.isKey = true) → ∀ t ∈ w.since, cfg.saDelay ≤ t) := by
  have hnone (hquiet : r.Quiet) : (∃ c ∈ r.calls, c.isKey = true) → ∀ t ∈ w.since,
      cfg.saDelay ≤ t := by
    intro hkey
    obtain ⟨c, hc, hkey⟩ := hkey
    simp [hquiet c hc] at hkey
  cases ht with
  | apart hapart hquiet =>
    refine ⟨?_, hnone hquiet⟩
    rw [Watch.foldl_see_quiet w hquiet]
    exact hw.apart hapart
  | seed hopen hsame hquiet =>
    refine ⟨?_, hnone hquiet⟩
    rw [Watch.foldl_see_quiet w hquiet]
    constructor
    · intro level hlow hhigh
      rw [failed_congr hsame.failed]
      exact hw.wrong level hlow hhigh
    · intro i
      rw [failed_congr hsame.failed]
      exact hw.below i
    · intro t ht hlt
      simp [hw.lockedOut ht hlt] at hopen
  | wrong level hlow hhigh hseed hcalls hvoid hafter harm hnow =>
    have hfree := not_checked hw hlow hseed
    refine ⟨?_, fun _ => hfree⟩
    have hcount := hw.wrong level hlow hhigh
    have hbelow := UInt8.lt_iff_toNat_lt.mp (hw.below (level.toNat - 1))
    have hmax := cfg.saMaxAttempts.toNat_lt
    have hsucc : (s.failed (level.toNat - 1) + 1).toNat = w.wrong level + 1 := by
      rw [UInt8.toNat_add, hcount]
      simp only [UInt8.reduceToNat]
      omega
    rw [hcalls]
    simp only [List.foldl_cons, List.foldl_nil, Watch.see]
    simp only [Server.AfterWrong, ge_iff_le, UInt8.le_iff_toNat_le, hsucc] at hafter
    by_cases hlast : cfg.saMaxAttempts.toNat ≤ w.wrong level + 1
    · rw [if_pos hlast] at hafter ⊢
      refine hw.checked hlow hhigh hafter.1 (saMaxAttempts_pos cfg) (some 0) ?_
      intro t ht _
      obtain rfl : 0 = t := by simpa using ht
      refine ⟨hvoid, .inr ?_⟩
      rw [hafter.2, hnow, u64, Nat.mod_eq_of_lt hclock]
      exact Nat.le_refl _
    · rw [if_neg hlast] at hafter ⊢
      rw [← hsucc]
      refine hw.checked hlow hhigh hafter.1 ?_ w.since ?_
      · rw [UInt8.lt_iff_toNat_lt, hsucc]
        omega
      · intro t ht hlt
        have := hfree t ht
        omega
  | right level hlow hhigh hseed hcalls hvoid hfailed huntil harm hnow =>
    have hfree := not_checked hw hlow hseed
    refine ⟨?_, fun _ => hfree⟩
    rw [hcalls]
    refine hw.checked hlow hhigh hfailed (saMaxAttempts_pos cfg) w.since ?_
    intro t ht hlt
    have := hfree t ht
    omega

/-- As an observer sees it. -/
theorem follows_answer {s s' : Server ε} {r : Reply} {w : Watch} (hw : Follows cfg s w)
    (ht : s.Touches cfg s' r) (hclock : s'.nowUs + cfg.saDelay < 2 ^ 64) :
    Follows cfg s' (r.calls.foldl (Watch.see cfg) (w.elapse (s'.nowUs - s.nowUs))) ∧
      ((∃ c ∈ r.calls, c.isKey = true) → ∀ t ∈ w.since, cfg.saDelay ≤ t) := by
  have hnow := ht.now
  rw [hnow] at hclock ⊢
  rw [Nat.sub_self, Watch.elapse_zero]
  exact follows_request hw ht hclock

namespace Server

theorem apart_tick (s : Server ε) (now : ℕ) :
    (s.startDelay cfg now).Apart (s.tick h cfg now) := by
  simp only [tick]
  split
  · exact apart_enterSession h _ _
  · exact .refl _

/-- Power-on keeps counters and delay, and arms the delay when wrong keys count. -/
theorem resetState_spec (h : Hooks ε) (s : Server ε) :
    (s.resetState h).saFailed = s.saFailed ∧ (s.resetState h).saLevel = 0 ∧
      (s.resetState h).saDelayUntil = s.saDelayUntil ∧ (s.resetState h).nowUs = s.nowUs ∧
      (s.resetState h).saArmDelay = s.anySaFailed := by
  simp only [resetState, restoreDtcSetting]
  split <;> exact ⟨rfl, rfl, rfl, rfl, rfl⟩

end Server

namespace Follows
variable {s : Server ε} {w : Watch}

theorem tick (hw : Follows cfg s w) (now : ℕ)
    (hclock : (s.tick h cfg now).nowUs + cfg.saDelay < 2 ^ 64) :
    Follows cfg (s.tick h cfg now) (w.elapse ((s.tick h cfg now).nowUs - s.nowUs)) := by
  have ha : (s.startDelay cfg now).Apart (s.tick h cfg now) := Server.apart_tick s now
  rw [ha.now] at hclock ⊢
  refine Follows.apart ?_ ha
  simp only [Server.startDelay] at hclock ⊢
  split
  · rename_i harm
    refine hw.moved rfl (.inl rfl) fun _ => .inr (.inl ?_)
    rw [if_pos harm] at hclock
    exact Nat.le_of_eq (Nat.mod_eq_of_lt hclock).symm
  · exact hw.moved rfl (.inl rfl) fun _ => .inr (.inr ⟨rfl, rfl⟩)

/-- Power-on, of a server that agrees with `s` in the attempt state. -/
theorem reset {s₀ : Server ε} (hw : Follows cfg s w)
    (hsame : (s₀.saFailed, s₀.saDelayUntil) = (s.saFailed, s.saDelayUntil))
    (hreset : s.saArmDelay = true → s₀.anySaFailed = true) :
    Follows cfg (s₀.resetState h) (w.elapse ((s₀.resetState h).nowUs - s.nowUs)) := by
  obtain ⟨hfailed, hlevel, huntil, -, harm⟩ := s₀.resetState_spec h
  simp only [Prod.mk.injEq] at hsame
  refine hw.moved (hfailed.trans hsame.1) (.inr hlevel) fun _ => ?_
  by_cases hany : s₀.anySaFailed = true
  · exact .inl (harm.trans hany)
  · right
    right
    refine ⟨?_, huntil.trans hsame.2⟩
    rw [harm]
    cases harmed : s.saArmDelay
    · simpa using hany
    · exact hreset harmed

theorem handOver (hw : Follows cfg s w) (ctx : ε) (dids : List Did) (respCap : ℤ) :
    Follows cfg ((start h ctx dids respCap).restoreSecurity s.keptSecurity)
      (w.elapse (((start h ctx dids respCap).restoreSecurity s.keptSecurity).nowUs - s.nowUs)) := by
  refine hw.moved rfl (.inr (Server.resetState_spec h _).2.1) fun hlocked => .inl ?_
  have hkept : s.keptSecurity.2 = true := hlocked
  simp [Server.restoreSecurity, hkept]

end Follows

/-- A server after `init` knows of no wrong key and no lockout. -/
theorem follows_start (ctx : ε) (dids : List Did) (respCap : ℤ) :
    Follows cfg (start h ctx dids respCap) {} := by
  have hzero : ∀ i, (start h ctx dids respCap).failed i = 0 := by
    intro i
    have hfailed : (start h ctx dids respCap).saFailed = .replicate _ 0 :=
      (Server.resetState_spec h _).1
    rw [Server.failed, hfailed, Vector.getElem?_replicate]
    split <;> rfl
  constructor
  · intro level _ _
    rw [hzero]
    rfl
  · intro i
    rw [hzero]
    exact saMaxAttempts_pos cfg
  · exact fun t ht => nomatch ht

/-- One orderly step. -/
theorem follows_step {s : Server ε} {w : Watch} (hw : Follows cfg s w) (e : Event ε)
    (ho : Orderly cfg (Trace.entry (step h cfg) s e)) :
    Follows cfg (step h cfg s e).1 (w.after cfg (Trace.entry (step h cfg) s e)) ∧
      (ChecksKey (Trace.entry (step h cfg) s e) → ∀ t ∈ w.since, cfg.saDelay ≤ t) := by
  have hsilent (hk : ∃ c ∈ Reply.silent.calls, c.isKey = true) :
      ∀ t ∈ w.since, cfg.saDelay ≤ t := by
    simp [Reply.silent] at hk
  have hclock := ho.clock
  simp only [Watch.after, ChecksKey, Trace.entry_after, Trace.entry_before, Trace.entry_label]
    at hclock ⊢
  cases e with
  | handle req => exact follows_answer hw (s.touches_dispatch req) hclock
  | handleFunctional req => exact follows_answer hw (s.touches_handleFunctional req) hclock
  | tick now => exact ⟨hw.tick now hclock, hsilent⟩
  | holdS3 now => exact ⟨hw.moved rfl (.inl rfl) fun _ => .inr (.inr ⟨rfl, rfl⟩), hsilent⟩
  | endSession =>
    have ha := s.apart_enterSession h sessionDefault
    exact ⟨hw.moved ha.failed ha.level fun _ => .inr (.inr ⟨ha.arm, ha.until_eq⟩), hsilent⟩
  | resetState => exact ⟨hw.reset rfl (ho.reset rfl), hsilent⟩
  | init respCap => exact ⟨hw.reset rfl (ho.reset rfl), hsilent⟩
  | handOver ctx dids respCap => exact ⟨hw.handOver ctx dids respCap, hsilent⟩

/-! ## Runs -/

/-- Along a run in which no reset finds an armed delay without wrong keys, no key is checked from
the last wrong key that the limit allows until the delay has passed: whatever requests, session
changes, resets and hand-overs lie between. -/
theorem lockout_kept (h : Hooks ε) (cfg : Config) (ctx : ε) (dids : List Did) (respCap : ℤ)
    (es : List (Event ε))
    (hes : ∀ x ∈ Trace.history (step h cfg) (start h ctx dids respCap) es, Orderly cfg x) :
    Trace.Along (KeepsLockout cfg) (Trace.history (step h cfg) (start h ctx dids respCap) es) := by
  refine (Trace.run_along (C := fun _ x => Orderly cfg x)
    (I := fun s hist => Follows cfg s (Watch.of cfg hist)) (follows_start ctx dids respCap) ?_ es
    (Trace.along_of_forall fun x hx _ => hes x hx)).2
  intro es e hw ho
  rw [Watch.of_snoc]
  exact follows_step hw e ho

instance (cfg : Config) (x : Trace.Entry (Server ε) (Event ε) Reply) :
    Decidable (Orderly cfg x) :=
  decidable_of_iff
    ((x.event.resets = true → x.before.saArmDelay = true → x.before.anySaFailed = true) ∧
      x.after.nowUs + cfg.saDelay < 2 ^ 64)
    ⟨fun hx => ⟨hx.1, hx.2⟩, fun hx => ⟨hx.reset, hx.clock⟩⟩

/-! ## A bench -/

/-- A seed that does not change, and its complement for a key. -/
def benchHooks : Hooks Unit where
  security := some {
    seed := fun ctx => (ctx, [0x11, 0x22, 0x33, 0x44], true)
    keyOk := fun ctx _ seed key => (ctx, key == seed.map (· ^^^ 0xFF)) }

/-- A node that serves level 1, with the attempts and the delay of the standard. -/
def bench : Config where
  securityLevels := 0x01

/-- A seed is asked for and a wrong key sent. -/
def wrongKey : List (Event Unit) := [.handle [0x27, 0x01], .handle [0x27, 0x02, 0x00, 0x00, 0x00, 0x00]]

/-- Three wrong keys in the extended session, and the owner restarts the controller. -/
def lockedRestart : List (Event Unit) :=
  .tick 1 :: .handle [0x10, 0x03] :: wrongKey ++ wrongKey ++ wrongKey ++ [.handOver () [] 64]

theorem lockout_kept_lockedRestart :
    (Trace.final (step benchHooks bench) (start benchHooks () [] 64)
        (lockedRestart ++ [.tick 1])).lockedOut = true ∧
      Trace.Along (KeepsLockout bench) (Trace.history (step benchHooks bench)
        (start benchHooks () [] 64) (lockedRestart ++ [.tick 1, .handle [0x10, 0x03]] ++ wrongKey)) :=
  ⟨by decide +kernel, lockout_kept benchHooks bench () [] 64 _ (by decide +kernel)⟩

/-- A reset between the hand-over and its first tick drops the lockout. -/
theorem lockout_lost :
    ¬ ∀ (ε : Type) (h : Hooks ε) (cfg : Config) (ctx : ε) (dids : List Did) (respCap : ℤ)
      (es : List (Event ε)), Trace.Along (KeepsLockout cfg)
        (Trace.history (step h cfg) (start h ctx dids respCap) es) := by
  intro hall
  have hrun := hall Unit benchHooks bench () [] 64
    (lockedRestart ++ [.resetState, .tick 1, .handle [0x10, 0x03], .handle [0x27, 0x01]] ++
      [.handle [0x27, 0x02, 0x00, 0x00, 0x00, 0x00]])
  rw [Trace.history_snoc, Trace.along_snoc] at hrun
  have hkey : ChecksKey (Trace.entry (step benchHooks bench)
      (Trace.final (step benchHooks bench) (start benchHooks () [] 64) (lockedRestart ++
        [.resetState, .tick 1, .handle [0x10, 0x03], .handle [0x27, 0x01]]))
      (.handle [0x27, 0x02, 0x00, 0x00, 0x00, 0x00])) := ⟨.key 0x01 false, by decide +kernel, rfl⟩
  have hlocked := hrun.2 hkey 1 (by decide +kernel)
  exact absurd hlocked (by decide)

end BloblyEmb.Uds.Application
