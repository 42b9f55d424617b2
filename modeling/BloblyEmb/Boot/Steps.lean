import BloblyEmb.Boot.Check
import BloblyEmb.Lib.Trace

/-!
# What one event can do

Most events only keep the session's books. `Continues p p'` says so of the transfer and routine
state: what is under way after the event was under way before it, in the same state.
`serve_cases` sorts the events: an event keeps the books, starts a routine, is one of the three
download services, or is a due step of a routine. Every invariant of the transfer and routine
state is derived from this one inversion.
-/
namespace BloblyEmb.Boot
open Flash

variable {V : Verifier} {cfg : Config}

/-- The one gate of a routine: its last response is on its way, or has left, or was lost. Behind
its answer no unit waits. -/
structure Prog.Paced (p : Prog) : Prop where
  out_ready : p.work ≠ .none → p.workOut = true → p.workReady = false
  out_resend : p.work ≠ .none → p.workOut = true → p.workResend = false
  ready_resend : p.work ≠ .none → p.workReady = true → p.workResend = false
  answer : p.work = .answer → p.workReady = false

namespace Prog.Paced
variable {p p' : Prog}

theorem of_none (h : p.work = .none) : p.Paced :=
  ⟨fun hw => absurd h hw, fun hw => absurd h hw, fun hw => absurd h hw, by simp [h]⟩

/-- A response of the routine was just handed over. -/
theorem of_out (hready : p.workReady = false) (hresend : p.workResend = false) : p.Paced :=
  ⟨fun _ _ => hready, fun _ _ => hresend, fun _ _ => hresend, fun _ => hready⟩

theorem congr (h : (p'.work, p'.workOut, p'.workReady, p'.workResend) =
    (p.work, p.workOut, p.workReady, p.workResend)) (hp : p.Paced) : p'.Paced := by
  simp only [Prod.mk.injEq] at h
  obtain ⟨hw, ho, hr, hs⟩ := h
  constructor <;> simp only [hw, ho, hr, hs]
  · exact hp.out_ready
  · exact hp.out_resend
  · exact hp.ready_resend
  · exact hp.answer

/-- A unit waits only on a routine that works. -/
theorem of_due (hp : p.Paced) {via : Option Via} (hdue : p.workDue via = true)
    (hfresh : p.workResend = false) : p.work = .erase ∨ p.work = .check := by
  simp only [Prog.workDue, hfresh, Bool.or_false, Bool.and_eq_true, bne_iff_ne] at hdue
  have hans := hp.answer
  cases hw : p.work with
  | none => simp [hw] at hdue
  | erase => exact .inl rfl
  | check => exact .inr rfl
  | answer => simp [hans hw] at hdue

end Prog.Paced

/-- Whatever download or routine is under way in `p'` was under way in `p`, as it was. -/
structure Continues (p p' : Prog) : Prop where
  stage : (p'.stage = p.stage ∧ p'.stageLen = p.stageLen) ∨
    (p'.stage = List.replicate 32 0 ∧ p'.stageLen = 0)
  downloading : p'.downloading = true → p.downloading = true ∧ p'.stage = p.stage ∧
    p'.stageLen = p.stageLen ∧ p'.dlAddr = p.dlAddr ∧ p'.dlEnd = p.dlEnd ∧
    p'.nextBlock = p.nextBlock
  erased : p'.erased = true → p.erased = true
  erase : p'.work = .erase → p.work = .erase ∧ p'.workAddr = p.workAddr ∧
    p'.workEnd = p.workEnd
  check : p'.work = .check → p.work = .check
  paced : p.Paced → p'.Paced

namespace Continues
variable {p p' p'' : Prog}

theorem trans (h : Continues p p') (h' : Continues p' p'') : Continues p p'' where
  stage := by
    rcases h'.stage with ⟨hs, hl⟩ | hfresh
    · rcases h.stage with ⟨hs', hl'⟩ | ⟨hs', hl'⟩
      · exact .inl ⟨hs.trans hs', hl.trans hl'⟩
      · exact .inr ⟨hs.trans hs', hl.trans hl'⟩
    · exact .inr hfresh
  downloading hd := by
    obtain ⟨hd', e1, e2, e3, e4, e5⟩ := h'.downloading hd
    obtain ⟨hd'', f1, f2, f3, f4, f5⟩ := h.downloading hd'
    exact ⟨hd'', e1.trans f1, e2.trans f2, e3.trans f3, e4.trans f4, e5.trans f5⟩
  erased he := h.erased (h'.erased he)
  erase hw := by
    obtain ⟨hw', e1, e2⟩ := h'.erase hw
    obtain ⟨hw'', f1, f2⟩ := h.erase hw'
    exact ⟨hw'', e1.trans f1, e2.trans f2⟩
  check hw := h.check (h'.check hw)
  paced hp := h'.paced (h.paced hp)

/-- The books of a session: the transfer and routine fields as they were, a download or an
erased mark possibly given up, the routine as it was or no longer working. -/
theorem of_books
    (htransfer : (p'.stage, p'.stageLen, p'.dlAddr, p'.dlEnd, p'.nextBlock, p'.workAddr,
      p'.workEnd) = (p.stage, p.stageLen, p.dlAddr, p.dlEnd, p.nextBlock, p.workAddr, p.workEnd))
    (hd : p'.downloading = p.downloading ∨ p'.downloading = false)
    (he : p'.erased = p.erased ∨ p'.erased = false)
    (hw : p'.work = p.work ∨ p'.work = .none ∨ p'.work = .answer)
    (hp : p.Paced → p'.Paced) : Continues p p' := by
  simp only [Prod.mk.injEq] at htransfer
  obtain ⟨hs, hl, ha, hend, hb, hwa, hwe⟩ := htransfer
  refine ⟨.inl ⟨hs, hl⟩, fun h => ?_, fun h => ?_, fun h => ?_, fun h => ?_, hp⟩
  · rcases hd with hd | hd
    · exact ⟨hd ▸ h, hs, hl, ha, hend, hb⟩
    · simp [hd] at h
  · rcases he with he | he
    · exact he ▸ h
    · simp [he] at h
  · rcases hw with hw | hw | hw
    · exact ⟨hw ▸ h, hwa, hwe⟩
    · simp [hw] at h
    · simp [hw] at h
  · rcases hw with hw | hw | hw
    · exact hw ▸ h
    · simp [hw] at h
    · simp [hw] at h

/-- As `of_books`, with the routine as it was. -/
theorem of_kept
    (htransfer : (p'.stage, p'.stageLen, p'.dlAddr, p'.dlEnd, p'.nextBlock, p'.workAddr,
      p'.workEnd) = (p.stage, p.stageLen, p.dlAddr, p.dlEnd, p.nextBlock, p.workAddr, p.workEnd))
    (hd : p'.downloading = p.downloading ∨ p'.downloading = false)
    (he : p'.erased = p.erased ∨ p'.erased = false)
    (hwork : (p'.work, p'.workOut, p'.workReady, p'.workResend) =
      (p.work, p.workOut, p.workReady, p.workResend)) : Continues p p' :=
  of_books htransfer hd he (.inl (congrArg Prod.fst hwork)) (.congr hwork)

/-- Only fields outside the transfer and routine state change. -/
theorem of_same
    (h : (p'.stage, p'.stageLen, p'.dlAddr, p'.dlEnd, p'.nextBlock, p'.workAddr, p'.workEnd) =
      (p.stage, p.stageLen, p.dlAddr, p.dlEnd, p.nextBlock, p.workAddr, p.workEnd))
    (h' : (p'.downloading, p'.erased) = (p.downloading, p.erased))
    (hwork : (p'.work, p'.workOut, p'.workReady, p'.workResend) =
      (p.work, p.workOut, p.workReady, p.workResend)) : Continues p p' := by
  simp only [Prod.mk.injEq] at h'
  exact of_kept h (.inl h'.1) (.inl h'.2) hwork

theorem refl (p : Prog) : Continues p p := of_same rfl rfl rfl

theorem ite {c : Prop} [Decidable c] {q q' : Prog} (h : Continues p q) (h' : Continues p q') :
    Continues p (if c then q else q') := by
  split
  · exact h
  · exact h'

/-- A service after a reset has nothing under way. -/
theorem boot (p : Prog) (handoff : Option (ℕ × Via)) : Continues p (boot cfg handoff) := by
  rcases handoff with _ | ⟨now, via⟩ <;>
    exact ⟨.inr ⟨rfl, rfl⟩, nofun, nofun, nofun, nofun, fun _ => .of_none rfl⟩

theorem stamp (p : Prog) (now : ℕ) : Continues p (p.stamp now) := of_same rfl rfl rfl

theorem heardVia (p : Prog) (via : Via) (now : ℕ) : Continues p (p.heardVia via now) :=
  ite (stamp p now) (refl p)

theorem endSession (p : Prog) : Continues p p.endSession :=
  of_books rfl (.inr rfl) (.inr rfl) (.inr (.inl rfl)) fun _ => .of_none rfl

theorem workNone (p : Prog) : Continues p { p with work := .none } :=
  of_books rfl (.inl rfl) (.inl rfl) (.inr (.inl rfl)) fun _ => .of_none rfl

/-- The routine is over but for its answer. -/
theorem of_answer (hc : Continues { p with work := .answer } p') (hp : p'.Paced) :
    Continues p p' :=
  ⟨hc.stage, hc.downloading, hc.erased, fun h => (nomatch (hc.erase h).1),
    fun h => (nomatch hc.check h), fun _ => hp⟩

theorem settle (p : Prog) (via : Via) : Continues p (p.settle via) := by
  unfold Prog.settle
  extract_lets p₁ p₂ p₃
  have h₁ : Continues p p₁ :=
    ite (of_books rfl (.inl rfl) (.inl rfl) (.inl rfl) fun _ => .of_out rfl rfl) (refl p)
  have h₂ : Continues p₁ p₃ := of_same rfl rfl rfl
  have h₃ : Continues p₃ (if p₃.resetPending = true then
      { p₃ with remote := p₃.remote.asked (via = .net) } else p₃) :=
    ite (of_same rfl rfl rfl) (refl p₃)
  exact h₁.trans (h₂.trans h₃)

theorem workLeft (p : Prog) : Continues p p.workLeft := by
  unfold Prog.workLeft
  split
  · rename_i hout
    dsimp only
    split
    · exact of_books rfl (.inl rfl) (.inl rfl) (.inr (.inl rfl)) fun _ => .of_none rfl
    · rename_i hw
      refine of_books rfl (.inl rfl) (.inl rfl) (.inl rfl) fun hp => ⟨nofun, nofun, ?_, ?_⟩
      · exact fun hne _ => hp.out_resend hne hout
      · exact fun h => absurd h hw
  · exact refl p

theorem workLost (p : Prog) : Continues p p.workLost := by
  unfold Prog.workLost
  split
  · rename_i hout
    refine of_books rfl (.inl rfl) (.inl rfl) (.inl rfl) fun hp => ⟨nofun, nofun, ?_, ?_⟩
    · exact fun hne hr => by simp [hp.out_ready hne hout] at hr
    · exact hp.answer
  · exact refl p

theorem remoteSent (p : Prog) : Continues p p.remoteSent := by
  unfold Prog.remoteSent
  extract_lets p₁
  have h₁ : Continues p p₁ := of_same rfl rfl rfl
  exact h₁.trans (ite (workLeft p₁) (refl p₁))

theorem pushSent (p : Prog) : Continues p p.pushSent := ite (workLeft p) (refl p)

theorem remoteDropped (p : Prog) : Continues p p.remoteDropped := by
  unfold Prog.remoteDropped
  extract_lets dropped p₁ p₂
  have h₁ : Continues p p₁ := of_same rfl rfl rfl
  have h₂ : Continues p₁ p₂ := ite (endSession p₁) (refl p₁)
  exact h₁.trans (h₂.trans (ite (workNone p₂) (refl p₂)))

theorem netUp (p : Prog) (now : ℕ) : Continues p (p.netUp now) :=
  ite (of_same rfl rfl rfl) (refl p)

theorem cancelReset (p : Prog) : Continues p p.cancelReset :=
  ite (of_same rfl rfl rfl) (refl p)

theorem tick (cfg : Config) (p : Prog) (now : ℕ) : Continues p (p.tick cfg now) := by
  unfold Prog.tick
  extract_lets p₁ p₂ p₃ wait p₄
  have h₁ : Continues p p₁ := of_same rfl rfl rfl
  have h₂ : Continues p₁ p₂ := ite (stamp p₁ now) (refl p₁)
  have h₃ : Continues p₂ p₃ := ite (heardVia p₂ .net now) (refl p₂)
  have h₄ : Continues p₃ p₄ := ite (of_same rfl rfl rfl) (refl p₃)
  have h₅ : Continues p₄ (if p₄.srv.session ≠ 0x01 ∧ p₄.awaitNet = false ∧ p₄.heard = true ∧
      elapsed now p₄.lastRxUs > s3ServerUs then p₄.endSession else p₄) :=
    ite (endSession p₄) (refl p₄)
  exact h₁.trans (h₂.trans (h₃.trans (h₄.trans h₅)))

/-- What was lost is said again, or given up. -/
theorem resend (p : Prog) (hne : p.work ≠ .none) (hresend : p.workResend = true) :
    Continues p p.resend.1 := by
  -- nothing was ready while a response was lost
  have hready : p.Paced → p.workReady = false := by
    intro hp
    by_contra h
    simpa [hresend] using hp.ready_resend hne (by simpa using h)
  unfold Prog.resend
  extract_lets p₁
  split
  · split
    · exact of_books rfl (.inl rfl) (.inl rfl) (.inr (.inl rfl)) fun _ => .of_none rfl
    · exact of_books rfl (.inl rfl) (.inl rfl) (.inl rfl) fun hp => .of_out (hready hp) rfl
  · split
    · exact of_books rfl (.inl rfl) (.inl rfl) (.inr (.inr rfl)) fun hp => .of_out (hready hp) rfl
    · exact of_books rfl (.inl rfl) (.inl rfl) (.inl rfl) fun hp => .of_out (hready hp) rfl

end Continues

/-! ## The operations -/

@[simp] theorem Prog.settle_stageLen (p : Prog) (via : Via) :
    (p.settle via).stageLen = p.stageLen := by
  unfold Prog.settle
  dsimp only
  split_ifs <;> rfl

/-- The routine and download services may be used. -/
def Prog.Gated (cfg : Config) (p : Prog) : Prop :=
  p.srv.session = 0x02 ∧ p.writeLocked cfg = false

/-- The download accepted over `[addr, addr+size)`. -/
def Prog.startDownload (p : Prog) (addr size : ℕ) : Prog :=
  { p with
    downloading := true
    dlAddr := addr
    dlEnd := u32 (addr + size)
    nextBlock := 1
    stageLen := 0 }

/-- The routines a request can start. -/
inductive Routine
  | erase (addr size : ℕ)
  | check

/-- The routine accepted. -/
def Prog.start (p : Prog) : Routine → Prog
  | .erase addr size =>
    { p with
      erased := false
      downloading := false
      work := .erase
      workAddr := addr
      workEnd := u32 (addr + size) }
  | .check => { p with work := .check }

/-- A routine starts with its first response on the way. -/
theorem paced_settle_start (p : Prog) (r : Routine) (via : Via) :
    ((p.start r).settle via).Paced := by
  have hstart : (p.start r).work = .erase ∨ (p.start r).work = .check := by
    cases r with
    | erase addr size => exact .inl rfl
    | check => exact .inr rfl
  unfold Prog.settle
  extract_lets p₁ p₂ p₃
  have h₁ : p₁.workReady = false ∧ p₁.workResend = false := by
    simp only [p₁, if_pos hstart, and_self]
  split <;> exact .of_out h₁.1 h₁.2

/-- What a routine is accepted on. -/
def Routine.Admitted (cfg : Config) (p : Prog) : Routine → Prop
  | .erase addr size => Prog.regionOk cfg addr size = true
  | .check => p.downloading = false

/-- The routine a request asks for. -/
def routineOf (req : List UInt8) : Option Routine :=
  let rid := (req.getD 2 0).toUInt16 <<< 8 ||| (req.getD 3 0).toUInt16
  if rid = routineErase then some (.erase (reqWord req 4) (reqWord req 8))
  else if rid = routineCheck then some .check
  else none

/-- The answer that a routine has started. -/
def pending : List UInt8 := Uds.negative 0x31 nrcResponsePending

/-- 0x31 starts a routine, or refuses and changes nothing. -/
theorem routineControl_cases (cfg : Config) (p : Prog) (req : List UInt8) :
    (∃ r, routineOf req = some r ∧ p.Gated cfg ∧ r.Admitted cfg p ∧
      p.routineControl cfg req = (p.start r, pending)) ∨
    ∃ nrc ≠ nrcResponsePending, p.routineControl cfg req = (p, Uds.negative 0x31 nrc) := by
  unfold Prog.routineControl
  split
  · exact .inr ⟨_, by decide, rfl⟩
  dsimp only
  split
  · exact .inr ⟨_, by decide, rfl⟩
  split
  · exact .inr ⟨_, by decide, rfl⟩
  rename_i hgate
  have hgated : p.Gated cfg := by
    simpa [Prog.Gated, Prog.inProgrammingSession] using hgate
  split
  · rename_i hrid
    split
    · exact .inr ⟨_, by decide, rfl⟩
    split
    · exact .inr ⟨_, by decide, rfl⟩
    · rename_i hregion
      exact .inl ⟨.erase (reqWord req 4) (reqWord req 8), by rw [routineOf, if_pos hrid], hgated,
        (by simpa using hregion : Prog.regionOk cfg (reqWord req 4) (reqWord req 8) = true), rfl⟩
  split
  · rename_i hne hrid
    split
    · exact .inr ⟨_, by decide, rfl⟩
    · rename_i hd
      exact .inl ⟨.check, by rw [routineOf, if_neg hne, if_pos hrid], hgated,
        (by simpa using hd : p.downloading = false), rfl⟩
  · exact .inr ⟨_, by decide, rfl⟩

/-- 0x29 leaves transfers and routines alone. -/
theorem continues_authentication (V : Verifier) (cfg : Config) (draw : Draw) (p : Prog)
    (req : List UInt8) : Continues p (p.authentication V cfg draw req).1 := by
  unfold Prog.authentication
  dsimp only
  split_ifs <;> exact .of_same rfl rfl rfl

theorem authentication_ne_pending (V : Verifier) (cfg : Config) (draw : Draw) (p : Prog)
    (req : List UInt8) : (p.authentication V cfg draw req).2 ≠ pending := by
  unfold Prog.authentication
  dsimp only
  split_ifs <;> simp [pending, Uds.negative]

theorem negative_ne_pending {sid nrc : UInt8} (h : nrc ≠ nrcResponsePending) :
    Uds.negative sid nrc ≠ pending := by
  intro heq
  exact h (by simpa [pending, Uds.negative] using congrArg (·.getD 2 0) heq)

theorem testerPresent_ne_pending (req : List UInt8) :
    Uds.Server.testerPresent req ≠ pending := by
  unfold Uds.Server.testerPresent
  split
  · exact negative_ne_pending (by decide)
  · exact negative_ne_pending (by decide)
  · split_ifs <;> decide

/-- No answer of the server under the bootloader reads as a started routine. -/
theorem handle_ne_pending (s : Uds.Server) (req : List UInt8) : (s.handle req).2 ≠ pending := by
  cases req with
  | nil => exact (List.cons_ne_nil _ _).symm
  | cons sid rest =>
    unfold Uds.Server.handle
    dsimp only
    split_ifs
    · exact testerPresent_ne_pending _
    · unfold Uds.Server.sessionControl
      split
      · exact negative_ne_pending (by decide)
      · exact negative_ne_pending (by decide)
      · dsimp only
        split_ifs
        · exact negative_ne_pending (by decide)
        · exact negative_ne_pending (by decide)
        · exact (List.cons_ne_nil _ _).symm
        · simp [pending, Uds.negative, Uds.Server.sessionAnswer]
    · unfold Uds.Server.readDid
      dsimp only
      split_ifs
      · exact negative_ne_pending (by decide)
      · exact negative_ne_pending (by decide)
      · exact negative_ne_pending (by decide)
      · simp [pending, Uds.negative]
    · unfold Uds.Server.writeDid
      split_ifs <;> exact negative_ne_pending (by decide)
    · exact negative_ne_pending (by decide)

/-! ## The inversion -/

/-- The request an event brings, over its transport, if it is served at all. -/
def Event.request : Event → Option (Via × List UInt8 × Draw)
  | .handle req draw => some (.bus, req, draw)
  | .serveRemote req false draw => some (.net, req, draw)
  | _ => none

/-- No routine is at work: a request is dispatched only then. -/
def Prog.Idle (p : Prog) : Prop := p.work ≠ .erase ∧ p.work ≠ .check

/-- The answer is no positive answer of a download service to such a request. -/
def NoService (e : Event) (resp : List UInt8) : Prop :=
  ∀ via req draw sid, e.request = some (via, req, draw) → req.head? = some sid →
    sid ∈ [0x34, 0x36, 0x37] → resp.head? ≠ some (sid + 0x40)

/-- What an event computes from the session `p`. -/
inductive Does (V : Verifier) (cfg : Config) (p : Prog) :
    Event → FlashM (Prog × List UInt8) → Prop
  /-- Only the books are kept. -/
  | books {e : Event} {p' : Prog} {resp : List UInt8} (h : Continues p p')
      (hresp : e.request.isSome = true → resp ≠ pending) (hserv : NoService e resp) :
      Does V cfg p e (pure (p', resp))
  | routine {e : Event} {via : Via} {req : List UInt8} {draw : Draw} {r : Routine} {p₀ p' : Prog}
      (he : e.request = some (via, req, draw)) (hsid : req.head? = some 0x31)
      (hr : routineOf req = some r) (h₀ : Continues p p₀) (hidle : p₀.Idle) (hgate : p₀.Gated cfg)
      (hadm : r.Admitted cfg p₀) (h : Continues (p₀.start r) p') (hpaced : p'.Paced) :
      Does V cfg p e (pure (p', pending))
  | download {e : Event} {via : Via} {req : List UInt8} {draw : Draw} {p₀ : Prog}
      (he : e.request = some (via, req, draw)) (hsid : req.head? = some 0x34)
      (h₀ : Continues p p₀) (hidle : p₀.Idle) :
      Does V cfg p e (p₀.requestDownload cfg req >>= fun r => pure (r.1.settle via, r.2))
  | transfer {e : Event} {via : Via} {req : List UInt8} {draw : Draw} {p₀ : Prog}
      (he : e.request = some (via, req, draw)) (hsid : req.head? = some 0x36)
      (h₀ : Continues p p₀) (hidle : p₀.Idle) :
      Does V cfg p e (p₀.transferData cfg req >>= fun r => pure (r.1.settle via, r.2))
  | exit {e : Event} {via : Via} {req : List UInt8} {draw : Draw} {p₀ : Prog}
      (he : e.request = some (via, req, draw)) (hsid : req.head? = some 0x37)
      (h₀ : Continues p p₀) (hidle : p₀.Idle) :
      Does V cfg p e (p₀.transferExit cfg >>= fun r => pure (r.1.settle via, r.2))
  | work {now : ℕ} (hdue : p.workDue p.workVia = true) (hfresh : p.workResend = false) :
      Does V cfg p (.step now) (p.step V cfg now)

/-- A negative answer, or none, is no answer of a download service. -/
theorem noService_negative (e : Event) (sid nrc : UInt8) : NoService e (Uds.negative sid nrc) := by
  intro via req draw sid' _ _ hmem h
  simp only [Uds.negative, List.head?_cons, Option.some.injEq] at h
  simp only [List.mem_cons, List.not_mem_nil, or_false] at hmem
  rcases hmem with rfl | rfl | rfl <;> exact absurd h (by decide)

theorem noService_nil (e : Event) : NoService e [] := by
  intro via req draw sid _ _ _ h
  exact nomatch h

/-- Another service's request. -/
theorem noService_of_sid {e : Event} {via : Via} {req : List UInt8} {draw : Draw}
    {resp : List UInt8} (he : e.request = some (via, req, draw))
    (hsid : ∀ sid ∈ ([0x34, 0x36, 0x37] : List UInt8), req.head? ≠ some sid) :
    NoService e resp := by
  intro via' req' draw' sid he' hs hmem
  rw [he] at he'
  obtain ⟨-, rfl, -⟩ := Prod.mk.inj (Option.some.inj he')
  exact absurd hs (hsid sid hmem)

theorem noService_of_eq {e : Event} {via : Via} {req : List UInt8} {draw : Draw}
    {resp : List UInt8} {sid : UInt8} (he : e.request = some (via, req, draw))
    (hsid : req.head? = some sid) (hne : sid ∉ ([0x34, 0x36, 0x37] : List UInt8)) :
    NoService e resp := by
  refine noService_of_sid he fun sid' hmem h => hne ?_
  rw [hsid] at h
  exact Option.some.inj h ▸ hmem

/-- A request that is dispatched. -/
theorem does_dispatch {e : Event} {via : Via} {req : List UInt8} {draw : Draw} {p p₀ : Prog}
    (he : e.request = some (via, req, draw)) (h₀ : Continues p p₀) (hidle : p₀.Idle) :
    Does V cfg p e (p₀.dispatch V cfg draw req >>= fun r => pure (r.1.settle via, r.2)) := by
  unfold Prog.dispatch
  split
  · rename_i hsid
    rw [FlashM.pure_bind]
    refine .books (h₀.trans (.trans ?_ (.settle _ via))) (fun _ => handle_ne_pending _ _)
      (noService_of_eq he hsid (by decide))
    exact .of_kept rfl (.inr rfl) (.inr rfl) rfl
  · rename_i hsid
    rw [FlashM.pure_bind]
    exact .books (h₀.trans (.trans (continues_authentication V cfg draw p₀ req) (.settle _ via)))
      (fun _ => authentication_ne_pending V cfg draw p₀ req) (noService_of_eq he hsid (by decide))
  · rename_i hsid
    rw [FlashM.pure_bind]
    rcases routineControl_cases cfg p₀ req with ⟨r, hr, hg, hadm, heq⟩ | ⟨nrc, hnrc, heq⟩
    · rw [heq]
      exact .routine he hsid hr h₀ hidle hg hadm (.settle _ via) (paced_settle_start p₀ r via)
    · rw [heq]
      exact .books (h₀.trans (.settle _ via)) (fun _ => negative_ne_pending hnrc)
        (noService_negative _ _ _)
  · exact .download he ‹_› h₀ hidle
  · exact .transfer he ‹_› h₀ hidle
  · exact .exit he ‹_› h₀ hidle
  · rename_i hsid
    rw [FlashM.pure_bind]
    refine .books (h₀.trans (.trans ?_ (.settle _ via))) (fun _ => ?_)
      (noService_of_eq he hsid (by decide))
    · unfold Prog.ecuReset
      split <;> exact .of_same rfl rfl rfl
    · unfold Prog.ecuReset
      split
      · exact negative_ne_pending (by decide)
      · dsimp only
        split <;> simp [pending, Uds.negative]
  · rename_i h34 h36 h37 _
    rw [FlashM.pure_bind]
    refine .books (h₀.trans (.trans ?_ (.settle _ via))) (fun _ => handle_ne_pending _ _)
      (noService_of_sid he ?_)
    · exact .of_same rfl rfl rfl
    · intro sid hmem
      simp only [List.mem_cons, List.not_mem_nil, or_false] at hmem
      rcases hmem with rfl | rfl | rfl
      · exact h34
      · exact h36
      · exact h37

theorem does_handleVia {e : Event} {via : Via} {req : List UInt8} {draw : Draw} {p p₀ : Prog}
    (he : e.request = some (via, req, draw)) (h₀ : Continues p p₀) :
    Does V cfg p e (p₀.handleVia V cfg via draw req) := by
  unfold Prog.handleVia
  split
  · exact .books h₀ (fun _ => by decide) (noService_nil e)
  split
  · exact .books h₀ (fun _ => negative_ne_pending (by decide)) (noService_negative _ _ _)
  split
  · exact .books h₀ (fun _ => negative_ne_pending (by decide)) (noService_negative _ _ _)
  · rename_i hwork
    refine does_dispatch he h₀ ⟨fun h => hwork ?_, fun h => hwork ?_⟩ <;> simp [h]

/-- An event without a request to answer. -/
theorem noService_of_none {e : Event} {resp : List UInt8} (h : e.request = none) :
    NoService e resp := by
  intro via req draw sid he
  rw [h] at he
  exact nomatch he

/-- Every event is one of the cases of `Does`. -/
theorem does (V : Verifier) (cfg : Config) (p : Prog) (e : Event) :
    Does V cfg p e (serve V cfg p e) := by
  cases e with
  | handle req draw => exact does_handleVia rfl (.refl p)
  | serveRemote req functional draw =>
    unfold serve Prog.serveRemote
    dsimp only
    have hbegin : Continues p { p with remote := p.remote.begin } := .of_same rfl rfl rfl
    split
    · exact .books hbegin (fun _ => by decide) (noService_nil _)
    · rename_i h
      have hf : functional = false := by
        cases functional
        · rfl
        · simp at h
      subst hf
      exact does_handleVia rfl (hbegin.trans (.heardVia _ .net _))
  | remoteSent => exact .books (.remoteSent p) nofun (noService_of_none rfl)
  | pushSent => exact .books (.pushSent p) nofun (noService_of_none rfl)
  | workLeft => exact .books (.workLeft p) nofun (noService_of_none rfl)
  | workLost => exact .books (.workLost p) nofun (noService_of_none rfl)
  | remoteDropped => exact .books (.remoteDropped p) nofun (noService_of_none rfl)
  | netUp now => exact .books (.netUp p now) nofun (noService_of_none rfl)
  | heard now => exact .books (.heardVia p .bus now) nofun (noService_of_none rfl)
  | tick now => exact .books (.tick cfg p now) nofun (noService_of_none rfl)
  | cancelReset => exact .books (.cancelReset p) nofun (noService_of_none rfl)
  | step now =>
    change Does V cfg p (.step now) (p.step V cfg now)
    by_cases hdue : p.workDue p.workVia = true
    · by_cases hre : p.workResend = true
      · have : p.step V cfg now = pure (p.stamp now).resend := by
          unfold Prog.step
          rw [if_neg (by simp [hdue])]
          exact if_pos hre
        rw [this]
        have hne : p.work ≠ .none := by
          intro h
          simp [Prog.workDue, h] at hdue
        exact .books ((Continues.stamp p now).trans (.resend (p.stamp now) hne hre)) nofun
          (noService_of_none rfl)
      · exact .work hdue (by simpa using hre)
    · have : p.step V cfg now = pure (p, []) := by
        unfold Prog.step
        rw [if_pos (by simpa using hdue)]
      rw [this]
      exact .books (.refl p) nofun (noService_of_none rfl)
  | reset handoff => exact .books (.boot p handoff) nofun (noService_of_none rfl)

end BloblyEmb.Boot
