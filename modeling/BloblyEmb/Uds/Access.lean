import BloblyEmb.Uds.Lockout
import BloblyEmb.Uds.Refusals

/-!
# Access

Who may use a service. A request passes the gates of the service table, of the session rows and of
the identifiers in the session and with the level there are; a level is unlocked by its right key
for a seed that was handed out since the session was entered; and every entry relocks.
-/
namespace BloblyEmb.Uds.Application

variable {ε : Type} {h : Hooks ε} {cfg : Config}

namespace Server

/-! ## The gates -/

/-- The request is answered positively, the answer suppressed or not, or a hook of its service is
called. -/
def Passes (h : Hooks ε) (cfg : Config) (s : Server ε) (req : List UInt8) : Prop :=
  req ≠ [] ∧ 0 ≤ s.respCap ∧
    (¬(s.handle h cfg req).2.Negative ∨ (s.handle h cfg req).2.calls ≠ [])

/-- The session is in the set, and the level is unlocked. -/
def Admits (s : Server ε) (sessions security : UInt8) : Prop :=
  inMask sessions s.session = true ∧ (security ≠ 0 → s.unlocked = security)

/-- The session row of a request, if there is one, and the sessions of a handoff without a row. -/
def AdmitsSession (cfg : Config) (s : Server ε) (sub : UInt8) : Prop :=
  (∀ row ∈ cfg.subs.find? fun r => r.sid == 0x10 && r.sub == sub,
      s.Admits row.sessions row.security) ∧
    ((cfg.subs.find? fun r => r.sid == 0x10 && r.sub == sub) = none → sub = sessionProgramming →
      cfg.noProgramming = true → inMask defaultHandoffSessions s.session = true)

/-- An identifier may be written. -/
def AdmitsWrite (s : Server ε) (id : UInt16) : Prop :=
  ∃ d ∈ s.findDid id, d.writable = true ∧ s.Admits d.writeSessions d.writeSecurity

/-- An identifier of the table that is answered may be read. -/
def AdmitsRead (s : Server ε) (id : UInt16) : Prop :=
  s.servedDidLen id = 0 → s.didRecord id ≠ [] →
    ∃ d ∈ s.findDid id, s.Admits d.readSessions d.readSecurity

/-- The identifier that a request writes. -/
def writtenId (req : List UInt8) : UInt16 :=
  (req.getD 1 0).toUInt16 <<< 8 ||| (req.getD 2 0).toUInt16

/-- The session and the level that a request needs. -/
structure Guarded (cfg : Config) (s : Server ε) (req : List UInt8) : Prop where
  service : ∃ row ∈ cfg.serviceRow (sidOf req), s.Admits row.sessions row.security
  session : sidOf req = 0x10 → s.AdmitsSession cfg (req.getD 1 0 &&& 0x7F)
  written : sidOf req = 0x2E → s.AdmitsWrite (writtenId req)
  read : sidOf req = 0x22 → ∀ id ∈ Uds.Server.requested req.tail, s.AdmitsRead id

/-- A refusal without a call. -/
def Turned (r : Reply) : Prop := r.Negative ∧ r.calls = []

theorem turned_negative (sid nrc : UInt8) : Turned (Reply.negative sid nrc) := by
  refine ⟨⟨rfl, ?_⟩, rfl⟩
  simp [Reply.negative, Reply.say, Reply.byte, place, Uds.negative]

theorem admits_of_row {s : Server ε} {sessions security : UInt8}
    (hmask : ¬(!inMask sessions s.session) = true)
    (hsec : ¬(security ≠ 0 ∧ s.unlocked ≠ security)) : s.Admits sessions security := by
  refine ⟨by simpa using hmask, fun hne => ?_⟩
  exact Classical.not_not.mp fun hx => hsec ⟨hne, hx⟩

theorem admitsSession_of_gate {s : Server ε} {sub : UInt8}
    (hgate : s.sessionGate cfg sub (sub == sessionProgramming && cfg.noProgramming) = 0) :
    s.AdmitsSession cfg sub := by
  simp only [sessionGate, subRefusal] at hgate
  constructor
  · intro row hrow
    rw [Option.mem_def.mp hrow] at hgate
    simp only [Option.map_some] at hgate
    split at hgate
    · exact absurd hgate (by decide)
    rename_i hmask
    split at hgate
    · exact absurd hgate (by decide)
    rename_i hsec
    exact admits_of_row hmask hsec
  · intro hnone hsub hprog
    rw [hnone] at hgate
    simp only [Option.map_none, hsub, hprog] at hgate
    split at hgate
    · exact absurd hgate (by decide)
    · rename_i hmask
      simpa using hmask

theorem guarded_sessionControl (s : Server ε) (req : List UInt8) :
    Turned (s.sessionControl h cfg req).2 ∨ s.AdmitsSession cfg (req.getD 1 0 &&& 0x7F) := by
  simp only [sessionControl]
  split
  · exact .inl (turned_negative _ _)
  split
  · exact .inl (turned_negative _ _)
  split
  · exact .inl (turned_negative _ _)
  split
  · exact .inl (turned_negative _ _)
  · rename_i hgate
    exact .inr (admitsSession_of_gate (Classical.not_not.mp hgate))

theorem guarded_writeDid (s : Server ε) (req : List UInt8) :
    Turned (s.writeDid h req).2 ∨ s.AdmitsWrite (writtenId req) := by
  simp only [writeDid]
  split
  · exact .inl (turned_negative _ _)
  split
  · exact .inl (turned_negative _ _)
  rename_i d hd
  split
  · exact .inl (turned_negative _ _)
  rename_i hwrite
  split
  · exact .inl (turned_negative _ _)
  rename_i hsec
  simp only [Bool.or_eq_true, Bool.not_eq_true', not_or, Bool.not_eq_false] at hwrite
  exact .inr ⟨d, hd, hwrite.1, hwrite.2, (admits_of_row (by simpa using hwrite.2) hsec).2⟩

theorem didSize_of_sizeDids {s : Server ε} {ids : List UInt16} {n : ℕ × ℕ}
    (hsize : s.sizeDids ids = .ok n) {id : UInt16} (hid : id ∈ ids) : ∃ k, s.didSize id = .ok k := by
  induction ids generalizing n with
  | nil => cases hid
  | cons a ids ih =>
    simp only [sizeDids] at hsize
    split at hsize
    · cases hsize
    rename_i k hk
    split at hsize
    · cases hsize
    · rename_i total answered hrest
      rcases List.mem_cons.mp hid with rfl | hid
      · exact ⟨k, hk⟩
      · exact ih hrest hid

theorem admitsRead_of_size {s : Server ε} {id : UInt16} {k : ℕ} (hsize : s.didSize id = .ok k) :
    s.AdmitsRead id := by
  intro hserved hrecord
  have hnot : ¬s.servedDidLen id > 0 := by omega
  simp only [didSize, if_neg hnot] at hsize
  simp only [didRecord, if_neg hnot] at hrecord
  cases hd : s.findDid id with
  | none =>
    rw [hd] at hrecord
    exact absurd rfl hrecord
  | some d =>
    simp only [hd] at hsize hrecord
    split at hrecord
    · exact absurd rfl hrecord
    · rename_i hmask
      rw [if_neg hmask] at hsize
      split at hsize
      · cases hsize
      · rename_i hsec
        exact ⟨d, rfl, admits_of_row hmask hsec⟩

theorem guarded_readDid (s : Server ε) (req : List UInt8) :
    Turned (s.readDid req).2 ∨ ∀ id ∈ Uds.Server.requested req.tail, s.AdmitsRead id := by
  simp only [readDid]
  split
  · exact .inl (turned_negative _ _)
  split
  · exact .inl (turned_negative _ _)
  · rename_i total answered hsize
    refine .inr fun id hid => ?_
    obtain ⟨k, hk⟩ := didSize_of_sizeDids hsize hid
    exact admitsRead_of_size hk

/-- A request that passes is guarded by what its service needs. -/
theorem guarded_of_passes (s : Server ε) (req : List UInt8) (hp : Passes h cfg s req) :
    Guarded cfg s req := by
  obtain ⟨hne, hcap, hp⟩ := hp
  have hturned : ¬Turned (s.handle h cfg req).2 := by
    rintro ⟨hn, hc⟩
    rcases hp with hp | hp
    · exact hp hn
    · exact hp hc
  clear hp
  cases req with
  | nil => exact absurd rfl hne
  | cons sid rest =>
    simp only [handle, dispatch] at hturned
    rw [if_neg (by omega)] at hturned
    split at hturned
    · exact absurd (turned_negative _ _) hturned
    split at hturned
    · exact absurd (turned_negative _ _) hturned
    rename_i row hrow
    split at hturned
    · exact absurd (turned_negative _ _) hturned
    rename_i hmask
    split at hturned
    · exact absurd (turned_negative _ _) hturned
    rename_i hsec
    have hsid : sidOf (sid :: rest) = sid := rfl
    refine ⟨⟨row, by rw [hsid]; exact hrow, admits_of_row hmask hsec⟩, ?_, ?_, ?_⟩
    · intro heq
      rw [hsid] at heq
      subst heq
      exact (guarded_sessionControl s.stamped _).resolve_left hturned
    · intro heq
      rw [hsid] at heq
      subst heq
      exact (guarded_writeDid s.stamped _).resolve_left hturned
    · intro heq
      rw [hsid] at heq
      subst heq
      exact (guarded_readDid s.stamped _).resolve_left hturned

/-! ## The unlocked level -/

/-- A seed of the level was drawn and handed out. -/
def Seeded (h : Hooks ε) (s : Server ε) (level : UInt8) (seed : Vector UInt8 seedLen) (r : Reply) :
    Prop :=
  (∃ ops ∈ h.security, (ops.seed s.ctx).2.2 = true) ∧
    ∃ sub : UInt8, (sub + 1) / 2 = level ∧ r.stores = place 0 (0x67 :: sub :: seed.toList)

/-- The request carries the right key for a seed of the level. -/
def RightKey (h : Hooks ε) (s : Server ε) (level : UInt8) (seed : Vector UInt8 seedLen)
    (req : List UInt8) : Prop :=
  ∃ ops ∈ h.security, (ops.keyOk s.ctx level seed.toList (req.drop 2)).2 = true

/-- What a request does to the unlocked level, the outstanding seed and the session. -/
inductive Moves (h : Hooks ε) (s : Server ε) (req : List UInt8) (s' : Server ε) (r : Reply) : Prop
  | same (hlevel : s'.saLevel = s.saLevel) (hseed : s'.saSeed = s.saSeed)
    (hunlocked : s'.unlocked = s.unlocked) (hsession : s'.session = s.session)
    (hepoch : s'.sessionEpoch = s.sessionEpoch)
  | void (hlevel : s'.saLevel = 0) (hunlocked : s'.unlocked = s.unlocked)
    (hsession : s'.session = s.session) (hepoch : s'.sessionEpoch = s.sessionEpoch)
  | seed (hseeded : Seeded h s s'.saLevel s'.saSeed r) (hunlocked : s'.unlocked = s.unlocked)
    (hsession : s'.session = s.session) (hepoch : s'.sessionEpoch = s.sessionEpoch)
  | key (hright : RightKey h s s'.unlocked s.saSeed req) (hasked : s.saLevel = s'.unlocked)
    (hlevel : s'.saLevel = 0) (hsession : s'.session = s.session)
    (hepoch : s'.sessionEpoch = s.sessionEpoch)
  | entry (hlevel : s'.saLevel = 0) (hunlocked : s'.unlocked = 0)
    (hepoch : s'.sessionEpoch = s.sessionEpoch + 1)

variable {s s' : Server ε} {req : List UInt8} {r r' : Reply}

theorem Moves.of_eq (heq : s' = s) : Moves h s req s' r := by
  subst heq
  exact .same rfl rfl rfl rfl rfl

theorem Moves.of_stores (hm : Moves h s req s' r) (hstores : r'.stores = r.stores) :
    Moves h s req s' r' := by
  cases hm with
  | same h₁ h₂ h₃ h₄ h₅ => exact .same h₁ h₂ h₃ h₄ h₅
  | void h₁ h₂ h₃ h₄ => exact .void h₁ h₂ h₃ h₄
  | seed hs h₂ h₃ h₄ =>
    obtain ⟨hops, sub, hsub, hout⟩ := hs
    exact .seed ⟨hops, sub, hsub, hstores.trans hout⟩ h₂ h₃ h₄
  | key h₁ h₂ h₃ h₄ h₅ => exact .key h₁ h₂ h₃ h₄ h₅
  | entry h₁ h₂ h₃ => exact .entry h₁ h₂ h₃

theorem Moves.of_stamped (hm : Moves h s.stamped req s' r) : Moves h s req s' r := by
  cases hm with
  | same h₁ h₂ h₃ h₄ h₅ => exact .same h₁ h₂ h₃ h₄ h₅
  | void h₁ h₂ h₃ h₄ => exact .void h₁ h₂ h₃ h₄
  | seed h₁ h₂ h₃ h₄ => exact .seed h₁ h₂ h₃ h₄
  | key h₁ h₂ h₃ h₄ h₅ => exact .key h₁ h₂ h₃ h₄ h₅
  | entry h₁ h₂ h₃ => exact .entry h₁ h₂ h₃

theorem relocked_enterSession (s : Server ε) (session : UInt8) :
    (s.enterSession h session).saLevel = 0 ∧ (s.enterSession h session).unlocked = 0 ∧
      (s.enterSession h session).sessionEpoch = s.sessionEpoch + 1 := by
  simp only [enterSession, restoreDtcSetting]
  split
  · split <;> exact ⟨rfl, rfl, rfl⟩
  · exact ⟨rfl, rfl, rfl⟩

theorem relocked_resetState (s : Server ε) :
    (s.resetState h).saLevel = 0 ∧ (s.resetState h).unlocked = 0 ∧
      (s.resetState h).sessionEpoch = s.sessionEpoch + 1 := by
  simp only [resetState, restoreDtcSetting]
  split <;> exact ⟨rfl, rfl, rfl⟩

theorem moves_sessionControl (s : Server ε) (req : List UInt8) :
    Moves h s req (s.sessionControl h cfg req).1 (s.sessionControl h cfg req).2 := by
  simp only [sessionControl]
  repeat' (split; exact .same rfl rfl rfl rfl rfl)
  split
  · simp only [handOff]
    split
    · exact .same rfl rfl rfl rfl rfl
    split
    · exact .same rfl rfl rfl rfl rfl
    · split <;> exact .same rfl rfl rfl rfl rfl
  · have hentry : _ ∧ _ ∧ _ := s.relocked_enterSession (h := h) (req.getD 1 0 &&& 0x7F)
    exact .entry hentry.1 hentry.2.1 hentry.2.2

theorem moves_securityAccess {ops : SecurityOps ε} (hops : ops ∈ h.security) (s : Server ε)
    (req : List UInt8) :
    Moves h s req (s.securityAccess ops cfg req).1 (s.securityAccess ops cfg req).2 := by
  simp only [securityAccess]
  split
  · exact .same rfl rfl rfl rfl rfl
  split
  · exact .same rfl rfl rfl rfl rfl
  split
  · simp only [requestSeed]
    split
    · exact .same rfl rfl rfl rfl rfl
    split
    · exact .void rfl rfl rfl rfl
    split
    · exact .void rfl rfl rfl rfl
    rename_i hdrawn
    split
    · exact .void rfl rfl rfl rfl
    · exact .seed ⟨⟨ops, hops, by simpa using hdrawn⟩, _, rfl, rfl⟩ rfl rfl rfl
  · simp only [sendKey]
    split
    · exact .same rfl rfl rfl rfl rfl
    split
    · exact .same rfl rfl rfl rfl rfl
    rename_i hasked
    split
    · split <;> exact .void rfl rfl rfl rfl
    · rename_i hright
      exact .key ⟨ops, hops, by simpa using hright⟩ (Classical.not_not.mp hasked) rfl rfl rfl

theorem moves_writeDid (s : Server ε) (req : List UInt8) :
    Moves h s req (s.writeDid h req).1 (s.writeDid h req).2 := by
  simp only [writeDid, storeDid]
  split
  · exact .same rfl rfl rfl rfl rfl
  split
  · exact .same rfl rfl rfl rfl rfl
  repeat' (split; exact .same rfl rfl rfl rfl rfl)
  split
  · split
    · exact .same rfl rfl rfl rfl rfl
    · split <;> exact .same rfl rfl rfl rfl rfl
  · exact .same rfl rfl rfl rfl rfl

theorem moves_serve (s : Server ε) (sid : UInt8) (req : List UInt8) :
    Moves h s req (s.serve h cfg sid req).1 (s.serve h cfg sid req).2 := by
  refine serve_cases (P := fun _ f => Moves h s req (f req).1 (f req).2)
    h cfg s ?_ ?_ ?_ ?_ ?_ ?_ ?_ ?_ ?_ ?_ ?_ sid
  · exact .of_eq (same_testerPresent s req)
  · exact moves_sessionControl s req
  · simp only [ecuReset]
    repeat' (split; exact .same rfl rfl rfl rfl rfl)
    exact .same rfl rfl rfl rfl rfl
  · exact .of_eq (same_readDid s req)
  · exact fun ops hops => moves_securityAccess hops s req
  · intro mem _
    simp only [clearDtcs]
    split
    · exact .same rfl rfl rfl rfl rfl
    · split <;> exact .same rfl rfl rfl rfl rfl
  · exact fun mem _ => .of_eq (same_readDtcs mem s req)
  · intro set _
    simp only [dtcSetting]
    repeat' (split; exact .same rfl rfl rfl rfl rfl)
    exact .same rfl rfl rfl rfl rfl
  · simp only [communicationControl]
    repeat' (split; exact .same rfl rfl rfl rfl rfl)
    exact .same rfl rfl rfl rfl rfl
  · exact moves_writeDid s req
  · exact fun _ => .same rfl rfl rfl rfl rfl

theorem moves_dispatch (s : Server ε) (req : List UInt8) :
    Moves h s req (s.dispatch h cfg req).1 (s.dispatch h cfg req).2 := by
  cases req with
  | nil => exact .same rfl rfl rfl rfl rfl
  | cons sid rest =>
    simp only [dispatch]
    repeat' (split; exact .same rfl rfl rfl rfl rfl)
    exact (moves_serve s.stamped sid (sid :: rest)).of_stamped

theorem moves_handleFunctional (s : Server ε) (req : List UInt8) :
    Moves h s req (s.handleFunctional h cfg req).1 (s.handleFunctional h cfg req).2 := by
  simp only [handleFunctional]
  split
  · exact .same rfl rfl rfl rfl rfl
  · split
    · exact (moves_dispatch s req).of_stores rfl
    · exact moves_dispatch s req

/-! ## Entries of a session -/

/-- A request for a session that is answered positively enters it, or is handed to the bootloader. -/
theorem enters_sessionControl (s : Server ε) (req : List UInt8)
    (hp : ¬(s.sessionControl h cfg req).2.Negative) :
    (s.sessionControl h cfg req).1.sessionEpoch = s.sessionEpoch + 1 ∨
      (s.sessionControl h cfg req).1.resetReq = resetIntoBoot := by
  revert hp
  simp only [sessionControl]
  have hturned : ∀ nrc, ¬(Reply.negative 0x10 nrc).Negative → False :=
    fun nrc hp => hp (turned_negative 0x10 nrc).1
  repeat' (split; exact fun hp => (hturned _ hp).elim)
  split
  · simp only [handOff]
    split
    · exact fun hp => (hturned _ hp).elim
    split
    · exact fun _ => .inr rfl
    · split
      · exact fun _ => .inr rfl
      · exact fun hp => (hturned _ hp).elim
  · exact fun _ => .inl (s.relocked_enterSession _).2.2

/-- The request is answered positively. -/
def Positive (h : Hooks ε) (cfg : Config) (s : Server ε) (req : List UInt8) : Prop :=
  req ≠ [] ∧ 0 ≤ s.respCap ∧ ¬(s.handle h cfg req).2.Negative

theorem enters_dispatch (s : Server ε) (req : List UInt8) (hsid : sidOf req = 0x10)
    (hp : Positive h cfg s req) :
    (s.dispatch h cfg req).1.sessionEpoch = s.sessionEpoch + 1 ∨
      (s.dispatch h cfg req).1.resetReq = resetIntoBoot := by
  obtain ⟨hne, hcap, hp⟩ := hp
  cases req with
  | nil => exact absurd rfl hne
  | cons sid rest =>
    obtain rfl : sid = 0x10 := hsid
    revert hp
    simp only [handle, dispatch]
    rw [if_neg (by omega)]
    have hturned : ∀ nrc, ¬(Reply.negative 0x10 nrc).Negative → False :=
      fun nrc hp => hp (turned_negative 0x10 nrc).1
    repeat' (split; exact fun hp => (hturned _ hp).elim)
    exact enters_sessionControl s.stamped (0x10 :: rest)

end Server

/-! ## Runs -/

/-- The request of an event. -/
def Event.request : Event ε → List UInt8
  | .handle req | .handleFunctional req => req
  | _ => []

/-- The controller starts again. -/
def Event.handsOver : Event ε → Bool
  | .handOver .. => true
  | _ => false

namespace Server

/-- A session is entered: the count of entries moves on, or the controller starts again. -/
def Enters (x : Trace.Entry (Server ε) (Event ε) Reply) : Prop :=
  x.event.handsOver = true ∨ x.after.sessionEpoch ≠ x.before.sessionEpoch

instance (x : Trace.Entry (Server ε) (Event ε) Reply) : Decidable (Enters x) :=
  inferInstanceAs (Decidable (_ ∨ _))

/-- The steps since the last entry of a session. -/
def sinceEntry (hist : List (Trace.Entry (Server ε) (Event ε) Reply)) :
    List (Trace.Entry (Server ε) (Event ε) Reply) :=
  hist.foldl (fun acc x => if Enters x then [] else acc ++ [x]) []

/-- A seed of the level was handed out in one of the steps. -/
def Outstanding (h : Hooks ε) (level : UInt8) (seed : Vector UInt8 seedLen)
    (steps : List (Trace.Entry (Server ε) (Event ε) Reply)) : Prop :=
  ∃ x ∈ steps, Seeded h x.before level seed x.label

/-- A seed of the level was handed out, and while it was outstanding its right key came. -/
def Earned (h : Hooks ε) (level : UInt8)
    (steps : List (Trace.Entry (Server ε) (Event ε) Reply)) : Prop :=
  ∃ x y, [x, y].Sublist steps ∧ Seeded h x.before level y.before.saSeed x.label ∧
    y.before.saLevel = level ∧ RightKey h y.before level y.before.saSeed y.event.request

/-- What the server knows is earned. -/
structure Knows (h : Hooks ε) (s : Server ε)
    (hist : List (Trace.Entry (Server ε) (Event ε) Reply)) : Prop where
  unlocked : s.unlocked ≠ 0 → Earned h s.unlocked (sinceEntry hist)
  seed : s.saLevel ≠ 0 → Outstanding h s.saLevel s.saSeed (sinceEntry hist)

/-- What holds of each step of a run. -/
structure KeepsAccess (h : Hooks ε) (cfg : Config)
    (hist : List (Trace.Entry (Server ε) (Event ε) Reply))
    (x : Trace.Entry (Server ε) (Event ε) Reply) : Prop where
  earned : x.after.unlocked ≠ 0 → Earned h x.after.unlocked (sinceEntry (hist ++ [x]))
  relocked : Enters x → x.after.unlocked = 0 ∧ x.after.saLevel = 0
  session : x.after.session ≠ x.before.session → Enters x
  control : sidOf x.event.request = 0x10 → Positive h cfg x.before x.event.request →
    Enters x ∨ x.after.resetReq = resetIntoBoot
  silence : ∀ now, x.event = .tick now →
    (x.before.startDelay cfg now).expired cfg now = true → Enters x
  restart : x.event = .endSession ∨ x.event.resets = true → Enters x
  guarded : Passes h cfg x.before x.event.request → Guarded cfg x.before x.event.request
  functional : ∀ req, x.event = .handleFunctional req →
    x.label.len ≠ 0 ∧ ¬x.label.Negative ∨ x.label.calls ≠ [] → Passes h cfg x.before req

theorem sinceEntry_snoc (hist : List (Trace.Entry (Server ε) (Event ε) Reply))
    (x : Trace.Entry (Server ε) (Event ε) Reply) :
    sinceEntry (hist ++ [x]) = if Enters x then [] else sinceEntry hist ++ [x] := by
  simp [sinceEntry, List.foldl_append]

theorem same_startDelay (s : Server ε) (now : ℕ) :
    Moves h s [] (s.startDelay cfg now) .silent := by
  simp only [startDelay]
  split <;> exact .same rfl rfl rfl rfl rfl

theorem epoch_startDelay (s : Server ε) (now : ℕ) :
    (s.startDelay cfg now).sessionEpoch = s.sessionEpoch := by
  simp only [startDelay]
  split <;> rfl

/-- Every step but the hand-over of the controller is one of the moves. -/
theorem moves_step (s : Server ε) {e : Event ε} (he : e.handsOver = false) :
    Moves h s e.request (step h cfg s e).1 (step h cfg s e).2 := by
  cases e with
  | handle req => exact moves_dispatch s req
  | handleFunctional req => exact moves_handleFunctional s req
  | tick now =>
    simp only [step, tick]
    split
    · have hentry := relocked_enterSession (h := h) (s.startDelay cfg now) sessionDefault
      refine .entry hentry.1 hentry.2.1 (hentry.2.2.trans ?_)
      rw [epoch_startDelay]
    · exact same_startDelay s now
  | holdS3 now => exact .same rfl rfl rfl rfl rfl
  | endSession =>
    have hentry := s.relocked_enterSession (h := h) sessionDefault
    exact .entry hentry.1 hentry.2.1 hentry.2.2
  | resetState =>
    have hentry := s.relocked_resetState (h := h)
    exact .entry hentry.1 hentry.2.1 hentry.2.2
  | init respCap =>
    have hentry := relocked_resetState (h := h)
      { s with respCap := if respCap ≥ minRespCap then respCap else -1 }
    exact .entry hentry.1 hentry.2.1 hentry.2.2
  | handOver => cases he

theorem epoch_moves (n : UInt32) : n + 1 ≠ n := by
  intro heq
  have hnat := congrArg UInt32.toNat heq
  have hlt := n.toNat_lt
  rw [UInt32.toNat_add] at hnat
  simp only [UInt32.reduceToNat] at hnat
  omega

/-- A hand-over starts with nothing unlocked. -/
theorem relocked_handOver (s : Server ε) {e : Event ε} (he : e.handsOver = true) :
    (step h cfg s e).1.unlocked = 0 ∧ (step h cfg s e).1.saLevel = 0 := by
  cases e with
  | handOver ctx dids respCap =>
    have hentry := relocked_resetState (h := h) { ({ ctx := ctx, dids := dids } : Server ε) with
      respCap := if respCap ≥ minRespCap then respCap else -1 }
    exact ⟨hentry.2.1, hentry.1⟩
  | _ => cases he

/-- Every entry of a session relocks and drops the outstanding seed. -/
theorem relocked_step (s : Server ε) (e : Event ε) (hx : Enters (Trace.entry (step h cfg) s e)) :
    (step h cfg s e).1.unlocked = 0 ∧ (step h cfg s e).1.saLevel = 0 := by
  cases he : e.handsOver with
  | true => exact relocked_handOver s he
  | false =>
    have hepoch : (step h cfg s e).1.sessionEpoch ≠ s.sessionEpoch := by
      simpa [Enters, he] using hx
    have hm : Moves h s e.request (step h cfg s e).1 (step h cfg s e).2 := moves_step s he
    cases hm with
    | same _ _ _ _ heq => exact absurd heq hepoch
    | void _ _ _ heq => exact absurd heq hepoch
    | seed _ _ _ heq => exact absurd heq hepoch
    | key _ _ _ _ heq => exact absurd heq hepoch
    | entry hlevel hunlocked _ => exact ⟨hunlocked, hlevel⟩

theorem Outstanding.earned {level : UInt8} {seed : Vector UInt8 seedLen}
    {steps : List (Trace.Entry (Server ε) (Event ε) Reply)}
    {x : Trace.Entry (Server ε) (Event ε) Reply} (ho : Outstanding h level seed steps)
    (hlevel : x.before.saLevel = level) (hseed : x.before.saSeed = seed)
    (hright : RightKey h x.before level seed x.event.request) : Earned h level (steps ++ [x]) := by
  obtain ⟨y, hy, hseeded⟩ := ho
  subst hseed
  exact ⟨y, x, (List.singleton_sublist.mpr hy).append (.refl [x]), hseeded, hlevel, hright⟩

theorem Earned.snoc {level : UInt8} {steps : List (Trace.Entry (Server ε) (Event ε) Reply)}
    (he : Earned h level steps) (x : Trace.Entry (Server ε) (Event ε) Reply) :
    Earned h level (steps ++ [x]) := by
  obtain ⟨y, z, hyz, hrest⟩ := he
  exact ⟨y, z, hyz.trans (List.sublist_append_left ..), hrest⟩

theorem Outstanding.snoc {level : UInt8} {seed : Vector UInt8 seedLen}
    {steps : List (Trace.Entry (Server ε) (Event ε) Reply)} (ho : Outstanding h level seed steps)
    (x : Trace.Entry (Server ε) (Event ε) Reply) : Outstanding h level seed (steps ++ [x]) := by
  obtain ⟨y, hy, hseeded⟩ := ho
  exact ⟨y, List.mem_append_left _ hy, hseeded⟩

/-- One step: what is unlocked or outstanding stays earned. -/
theorem knows_step {s : Server ε} {hist : List (Trace.Entry (Server ε) (Event ε) Reply)}
    (hk : Knows h s hist) (e : Event ε) :
    Knows h (step h cfg s e).1 (hist ++ [Trace.entry (step h cfg) s e]) := by
  by_cases hx : Enters (Trace.entry (step h cfg) s e)
  · have hrelocked := relocked_step s e hx
    exact ⟨fun hne => absurd hrelocked.1 hne, fun hne => absurd hrelocked.2 hne⟩
  · have hsince := sinceEntry_snoc hist (Trace.entry (step h cfg) s e)
    rw [if_neg hx] at hsince
    have hstay : e.handsOver = false ∧ (step h cfg s e).1.sessionEpoch = s.sessionEpoch := by
      simpa [Enters] using hx
    constructor
    · intro hne
      rw [hsince]
      have hm : Moves h s e.request (step h cfg s e).1 (step h cfg s e).2 := moves_step s hstay.1
      cases hm with
      | same _ _ hunlocked _ _ =>
        rw [hunlocked] at hne ⊢
        exact (hk.unlocked hne).snoc _
      | void _ hunlocked _ _ =>
        rw [hunlocked] at hne ⊢
        exact (hk.unlocked hne).snoc _
      | seed _ hunlocked _ _ =>
        rw [hunlocked] at hne ⊢
        exact (hk.unlocked hne).snoc _
      | key hright hasked _ _ _ =>
        have ho := hk.seed (by rw [hasked]; exact hne)
        rw [hasked] at ho
        exact ho.earned hasked rfl hright
      | entry _ hunlocked _ => exact absurd hunlocked hne
    · intro hne
      rw [hsince]
      have hm : Moves h s e.request (step h cfg s e).1 (step h cfg s e).2 := moves_step s hstay.1
      cases hm with
      | same hlevel hseed _ _ _ =>
        rw [hlevel] at hne
        rw [hlevel, hseed]
        exact (hk.seed hne).snoc _
      | void hlevel _ _ _ => exact absurd hlevel hne
      | seed hseeded _ _ _ => exact ⟨_, List.mem_append_right _ (List.mem_singleton_self _), hseeded⟩
      | key _ _ hlevel _ _ => exact absurd hlevel hne
      | entry hlevel _ _ => exact absurd hlevel hne

/-- The session changes by an entry only. -/
theorem session_step (s : Server ε) (e : Event ε)
    (hne : (step h cfg s e).1.session ≠ s.session) : Enters (Trace.entry (step h cfg) s e) := by
  by_contra hx
  have hstay : e.handsOver = false ∧ (step h cfg s e).1.sessionEpoch = s.sessionEpoch := by
    simpa [Enters] using hx
  have hm : Moves h s e.request (step h cfg s e).1 (step h cfg s e).2 := moves_step s hstay.1
  cases hm with
  | same _ _ _ heq _ => exact hne heq
  | void _ _ heq _ => exact hne heq
  | seed _ _ heq _ => exact hne heq
  | key _ _ _ heq _ => exact hne heq
  | entry _ _ hepoch => exact epoch_moves _ (hepoch.symm.trans hstay.2)

theorem enters_of_epoch {s : Server ε} {e : Event ε}
    (hepoch : (step h cfg s e).1.sessionEpoch = s.sessionEpoch + 1) :
    Enters (Trace.entry (step h cfg) s e) := by
  right
  rw [Trace.entry_after, Trace.entry_before, hepoch]
  exact epoch_moves _

theorem request_cases {e : Event ε} (hne : e.request ≠ []) :
    e = .handle e.request ∨ e = .handleFunctional e.request := by
  cases e with
  | handle req => exact .inl rfl
  | handleFunctional req => exact .inr rfl
  | _ => exact absurd rfl hne

theorem functional_state (s : Server ε) {req : List UInt8} (hsid : req.head? ≠ some 0x27) :
    (s.handleFunctional h cfg req).1 = (s.dispatch h cfg req).1 := by
  simp only [handleFunctional]
  rw [if_neg fun hx => hsid hx.1]
  split <;> rfl

/-- A session asked for and granted is entered, or handed to the bootloader. -/
theorem enters_control (s : Server ε) (e : Event ε) (hsid : sidOf e.request = 0x10)
    (hp : Positive h cfg s e.request) :
    Enters (Trace.entry (step h cfg) s e) ∨ (step h cfg s e).1.resetReq = resetIntoBoot := by
  have hdispatch := enters_dispatch s e.request hsid hp
  have hstate : (step h cfg s e).1 = (s.dispatch h cfg e.request).1 := by
    rcases request_cases hp.1 with heq | heq
    · rw [heq]
      rfl
    · rw [heq]
      refine functional_state s ?_
      cases hreq : e.request with
      | nil => exact absurd hreq hp.1
      | cons sid rest =>
        rw [hreq] at hsid
        obtain rfl : sid = 0x10 := hsid
        simp
  rw [hstate]
  rcases hdispatch with hepoch | hreset
  · exact .inl (enters_of_epoch (hstate ▸ hepoch))
  · exact .inr hreset

/-- What a functional request answers or acts on passes as a request. -/
theorem passes_of_functional (s : Server ε) (req : List UInt8)
    (ha : (s.handleFunctional h cfg req).2.len ≠ 0 ∧ ¬(s.handleFunctional h cfg req).2.Negative ∨
      (s.handleFunctional h cfg req).2.calls ≠ []) : Passes h cfg s req := by
  revert ha
  simp only [handleFunctional]
  split
  · simp [Reply.silent]
  intro ha
  have hdispatch : (s.dispatch h cfg req).2.len ≠ 0 ∧ ¬(s.dispatch h cfg req).2.Negative ∨
      (s.dispatch h cfg req).2.calls ≠ [] := by
    split at ha
    · exact .inr (by simpa using ha)
    · exact ha
  have hanswered : (s.dispatch h cfg req).2 ≠ .silent := by
    intro heq
    simp [heq, Reply.silent] at hdispatch
  refine ⟨?_, ?_, hdispatch.imp_left And.right⟩
  · rintro rfl
    exact hanswered rfl
  · by_contra hcap
    cases req with
    | nil => exact hanswered rfl
    | cons sid rest => exact hanswered (by simp [dispatch, Int.not_le.mp hcap])

theorem keepsAccess_step {s : Server ε} {hist : List (Trace.Entry (Server ε) (Event ε) Reply)}
    (hk : Knows h s hist) (e : Event ε) :
    KeepsAccess h cfg hist (Trace.entry (step h cfg) s e) where
  earned := (knows_step hk e).unlocked
  relocked := relocked_step s e
  session := session_step s e
  control := enters_control s e
  silence now he hexpired := by
    obtain rfl : e = .tick now := he
    have hentry := relocked_enterSession (h := h) (s.startDelay cfg now) sessionDefault
    have hexpired' : (s.startDelay cfg now).expired cfg now = true := hexpired
    refine enters_of_epoch ?_
    simp only [step, tick]
    rw [if_pos hexpired', hentry.2.2, epoch_startDelay]
  restart he := by
    cases e with
    | endSession => exact enters_of_epoch (s.relocked_enterSession _).2.2
    | resetState => exact enters_of_epoch s.relocked_resetState.2.2
    | init respCap =>
      exact enters_of_epoch (relocked_resetState (h := h)
        { s with respCap := if respCap ≥ minRespCap then respCap else -1 }).2.2
    | _ => simp [Event.resets] at he
  guarded := guarded_of_passes s e.request
  functional req he ha := by
    obtain rfl : e = .handleFunctional req := he
    exact passes_of_functional s req ha

end Server

open BloblyEmb.Uds.Application.Server in
/-- In every run: a level is unlocked only once its right key came for a seed of the level that
was handed out since the session was entered; every entry of a session relocks and drops the
outstanding seed, and a granted session, the session's silence, and a restart are such entries;
and a request is answered positively, or a hook is called for it, only in the sessions and with the
level of its service, of its session row, and of the identifiers it reads or writes. -/
theorem access_kept (h : Hooks ε) (cfg : Config) (ctx : ε) (dids : List Did) (respCap : ℤ)
    (es : List (Event ε)) :
    Trace.Along (KeepsAccess h cfg) (Trace.history (step h cfg) (start h ctx dids respCap) es) := by
  have hentry := relocked_resetState (h := h) { ({ ctx := ctx, dids := dids } : Server ε) with
    respCap := if respCap ≥ minRespCap then respCap else -1 }
  refine (Trace.run_along (C := fun _ _ => True) (I := Knows h) ?_ ?_ es fun _ _ _ _ => trivial).2
  · exact ⟨fun hne => absurd hentry.2.1 hne, fun hne => absurd hentry.1 hne⟩
  · exact fun es e hk _ => ⟨knows_step hk e, keepsAccess_step hk e⟩

/-- A node that would have the hard reset behind a level. -/
def guardedReset : Config where
  servesReset := true
  subs := [{ sid := 0x11, sub := 0x01, security := 0x01 }]

open BloblyEmb.Uds.Application.Server in
/-- A sub-function row guards nothing but a session: the reset is answered while locked. -/
theorem row_not_consulted :
    ¬ ∀ (ε : Type) (h : Hooks ε) (cfg : Config) (ctx : ε) (dids : List Did) (respCap : ℤ)
      (es : List (Event ε)) (req : List UInt8),
      Passes h cfg (Trace.final (step h cfg) (start h ctx dids respCap) es) req →
        ∀ row ∈ cfg.subs, row.sid = sidOf req → row.sub = req.getD 1 0 &&& 0x7F →
          (Trace.final (step h cfg) (start h ctx dids respCap) es).Admits row.sessions
            row.security := by
  intro hall
  have hadmits := hall Unit {} guardedReset () [] 64 [] [0x11, 0x01]
    ⟨by decide, by decide, .inl fun hn => absurd hn.1 (by decide)⟩ _ (List.mem_singleton_self _)
    rfl (by decide)
  exact absurd (hadmits.2 (by decide)) (by decide)

end BloblyEmb.Uds.Application
