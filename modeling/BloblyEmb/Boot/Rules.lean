import BloblyEmb.Boot.Steps
import BloblyEmb.Flash.Monitor

/-!
# Rules for the programming session

One rule for each operation that works on the flash, and from them the rule for runs: an
invariant of session and flash that the operations keep (`Keeps`) holds after every run, and
every call of every run satisfies the guarantee that came with it.
-/
namespace BloblyEmb.Boot
open Flash

variable {V : Verifier} {cfg : Config} {T : Prop} {A G : Call → Prop} {w : World}
  {C : World → Prop}

/-- A read, refused or not. -/
theorem sat_read {addr n : ℕ} {Q : Option (List UInt8) → World → Prop}
    (h : ∀ w', w.Reads w' → Q none w' ∧ Q (some (w.mem.bytes addr n)) w') :
    Sat T A G (Flash.read addr n) w Q C := by
  intro _
  obtain ⟨w', hr, hread | ⟨-, hread⟩⟩ := read_spec w addr n
  · rw [hread]
    simpa using (h w' hr).2
  · rw [hread]
    simpa using (h w' hr).1

/-- 0x34 refuses and changes nothing, or accepts over an erased window without a stale mark. -/
theorem sat_requestDownload {p : Prog} {req : List UInt8} {Q : Prog × List UInt8 → World → Prop}
    (hsame : ∀ w' nrc, w.Reads w' → Q (p, Uds.negative 0x34 nrc) w')
    (haccept : ∀ w', w.Reads w' → p.Gated cfg → p.erased = true →
      Prog.regionOk cfg (reqWord req 3) (reqWord req 7) = true → reqWord req 3 % progWord = 0 →
      w.mem.bytes (u32 (cfg.appBase + 32)) 4 ≠ Prog.markBytes →
      Q (p.startDownload (reqWord req 3) (reqWord req 7), [0x74, 0x20, 0x02, 0x02]) w') :
    Sat T A G (p.requestDownload cfg req) w Q C := by
  unfold Prog.requestDownload
  split
  · exact Sat.pure (hsame w _ (.refl w))
  split
  · exact Sat.pure (hsame w _ (.refl w))
  rename_i hgate
  have hgated : p.Gated cfg := by
    simpa [Prog.Gated, Prog.inProgrammingSession] using hgate
  split
  · exact Sat.pure (hsame w _ (.refl w))
  rename_i herased
  refine Sat.bind (sat_read fun w' hr => ⟨Sat.pure (hsame w' _ hr), ?_⟩)
  dsimp only
  split
  · exact Sat.pure (hsame w' _ hr)
  rename_i hmark
  split
  · exact Sat.pure (hsame w' _ hr)
  split
  · exact Sat.pure (hsame w' _ hr)
  rename_i hregion
  simp only [Bool.or_eq_true, Bool.not_eq_true', bne_iff_ne, not_or, Bool.not_eq_false,
    ne_eq, not_not] at hregion
  exact Sat.pure (haccept w' hr hgated (by simpa using herased) hregion.1 hregion.2 hmark)

/-- The staged word is skipped, stored, or left staged by a failed program call. -/
theorem sat_programStage {p : Prog} {Q : Prog × Bool → World → Prop}
    (hskip : p.dlAddr = u32 (cfg.appBase + 32) → Q (p.advance, true) w)
    (hprog : p.dlAddr ≠ u32 (cfg.appBase + 32) → Sat T A G (Flash.program p.dlAddr p.stage) w
      (fun ok w' => Q (if ok then p.advance else p, ok) w') C) :
    Sat T A G (p.programStage cfg) w Q C := by
  unfold Prog.programStage
  split
  · exact Sat.pure (hskip ‹_›)
  · rename_i hne
    refine Sat.andThen (hprog hne) fun ok w' hQ => ?_
    cases ok
    · exact Sat.pure hQ
    · exact Sat.pure hQ

/-- A program call that may fail in any way the driver can. -/
theorem sat_program {addr : ℕ} {data : List UInt8} {Q : Bool → World → Prop}
    (h : ∀ ok (landed : List UInt8) w', landed <+: data → (ok = true → landed = data) →
      w'.mem = w.mem.write addr landed → w'.faults.reads = w.faults.reads →
      A (.program addr data ok w.mem w'.mem) →
      G (.program addr data ok w.mem w'.mem) ∧ Q ok w' ∧ (ok = false → C w')) :
    Sat T A G (Flash.program addr data) w Q C := by
  refine Sat.program (fun _ hA => ?_) fun f _ hA => ?_
  · obtain ⟨hG, hQ, -⟩ := h true data (w.wrote (w.mem.write addr data)) (List.prefix_refl data)
      (fun _ => rfl) rfl rfl hA
    exact ⟨hG, hQ⟩
  · obtain ⟨hG, hQ, hC⟩ := h false (data.take f.landed)
      (w.wrote (w.mem.write addr (data.take f.landed))) (List.take_prefix ..) nofun rfl rfl hA
    exact ⟨hG, fun _ => hQ, fun _ => hC rfl⟩

/-- An erase call that may wipe any part of its range. -/
theorem sat_erase {addr size : ℕ} {Q : Bool → World → Prop}
    (h : ∀ ok (p : ℕ → Bool) w', (∀ x, p x = true → addr ≤ x ∧ x < addr + size) →
      (ok = true → ∀ x, addr ≤ x → x < addr + size → p x = true) → w'.mem = w.mem.wipe p →
      A (.erase addr size ok w.mem w'.mem) →
      G (.erase addr size ok w.mem w'.mem) ∧ Q ok w' ∧ (ok = false → C w')) :
    Sat T A G (Flash.erase addr size) w Q C := by
  refine Sat.erase (fun _ hA => ?_) fun p hp hA => ?_
  · obtain ⟨hG, hQ, -⟩ := h true (fun x => addr ≤ x && x < addr + size)
      (w.wrote (w.mem.wipe fun x => addr ≤ x && x < addr + size))
      (fun x hx => by simpa using hx) (fun _ x h1 h2 => by simp [h1, h2]) rfl hA
    exact ⟨hG, hQ⟩
  · obtain ⟨hG, hQ, hC⟩ := h false p (w.wrote (w.mem.wipe p)) hp nofun rfl hA
    exact ⟨hG, hQ, hC rfl⟩

/-- The check routine makes no call, or programs the mark over verified content. -/
theorem sat_checkAndMark {Q : Bool → World → Prop} (hno : ∀ w', w.Reads w' → Q false w')
    (hmark : ∀ w', w.Reads w' → Verified V cfg w'.mem →
      Sat T A G (Flash.program (u32 (cfg.appBase + 32)) Prog.markWord) w' Q C) :
    Sat T A G (Prog.checkAndMark V cfg) w Q C := by
  obtain ⟨w', hr, ⟨hv, hrun⟩ | ⟨-, hrun⟩⟩ := checkAndMark_spec V cfg w
  · have := hmark w' hr (hr.mem ▸ hv)
    unfold Sat at this ⊢
    rwa [hrun]
  · unfold Sat
    rw [hrun]
    intro _
    simpa using hno w' hr

/-- A due step works on the session with its gate closed. -/
theorem step_of_due {p : Prog} {now : ℕ} (hdue : p.workDue p.workVia = true)
    (hfresh : p.workResend = false) :
    p.step V cfg now =
      if p.work = .check then { p.stamp now with workReady := false }.checkUnit V cfg
      else { p.stamp now with workReady := false }.eraseUnit cfg := by
  unfold Prog.step
  rw [if_neg (by simp [hdue])]
  exact if_neg (show ¬ p.workResend = true by simp [hfresh])

/-- A due step of a routine: the check, or the erase of the next unit. -/
theorem sat_step {p : Prog} {now : ℕ} {Q : Prog × List UInt8 → World → Prop}
    (hdue : p.workDue p.workVia = true) (hfresh : p.workResend = false)
    (hcheck : p.work = .check → Sat T A G (Prog.checkAndMark V cfg) w
      (fun ok w' => ∀ p', Continues { p with work := .answer } p' → p'.Paced →
        Q (p', routineRsp routineCheck (if ok then 0x00 else 0x01)) w') C)
    (herase : p.work ≠ .check →
      Sat T A G (Flash.erase p.workAddr (sub32 (p.nextUnit cfg) p.workAddr)) w
        (fun ok w' =>
          if !ok then
            ∀ p', Continues { p with work := .answer } p' → p'.Paced →
              Q (p', Uds.negative 0x31 nrcGeneralProgrammingFailure) w'
          else if p.nextUnit cfg < p.workEnd then
            ∀ p', Continues { p with workAddr := p.nextUnit cfg } p' → p'.Paced →
              p'.work = p.work → Q (p', pending) w'
          else
            ∀ p', Continues { p with
                workAddr := p.nextUnit cfg
                erased := true
                work := .answer } p' → p'.Paced → Q (p', routineRsp routineErase 0x00) w') C) :
    Sat T A G (p.step V cfg now) w Q C := by
  have hout : ∀ q : Prog, q.workReady = false → q.workResend = p.workResend → q.Paced :=
    fun q hr hs => .of_out hr (hs.trans hfresh)
  rw [step_of_due hdue hfresh]
  refine Sat.ite (fun hw => ?_) fun hw => ?_
  · refine Sat.andThen (hcheck hw) fun ok w' hQ => Sat.pure (hQ _ ?_ (hout _ rfl rfl))
    exact .of_books rfl (.inl rfl) (.inl rfl) (.inl rfl) fun _ => hout _ rfl rfl
  · refine Sat.andThen (herase hw) fun ok w' hQ => ?_
    cases ok with
    | false =>
      refine Sat.pure (hQ _ ?_ (hout _ rfl rfl))
      exact .of_books rfl (.inl rfl) (.inl rfl) (.inl rfl) fun _ => hout _ rfl rfl
    | true =>
      simp only [Bool.not_true, Bool.false_eq_true, if_false] at hQ ⊢
      by_cases hlt : p.nextUnit cfg < p.workEnd
      · rw [if_pos hlt] at hQ
        refine Sat.ite (fun _ => Sat.pure (hQ _ ?_ (hout _ rfl rfl) rfl)) fun h => absurd hlt h
        exact .of_books rfl (.inl rfl) (.inl rfl) (.inl rfl) fun _ => hout _ rfl rfl
      · rw [if_neg hlt] at hQ
        refine Sat.ite (fun h => absurd h hlt) fun _ => Sat.pure (hQ _ ?_ (hout _ rfl rfl))
        exact .of_books rfl (.inl rfl) (.inl rfl) (.inl rfl) fun _ => hout _ rfl rfl

/-- A due step of a routine leaves the stage and the download alone. -/
theorem sat_step_apart {p : Prog} {now : ℕ} (hdue : p.workDue p.workVia = true)
    (hfresh : p.workResend = false) :
    Sat T A (fun _ => True) (p.step V cfg now) w
      (fun r _ => ∃ q : Prog, Continues q r.1 ∧ q.stage = p.stage ∧ q.stageLen = p.stageLen ∧
        q.downloading = p.downloading) (fun _ => True) := by
  refine sat_step hdue hfresh (fun _ => ?_) fun _ => ?_
  · refine sat_checkAndMark (fun _ _ _ hc _ => ⟨_, hc, rfl, rfl, rfl⟩) fun _ _ _ => ?_
    exact sat_program fun ok _ _ _ _ _ _ _ =>
      ⟨trivial, fun _ hc _ => ⟨_, hc, rfl, rfl, rfl⟩, fun _ => trivial⟩
  · refine sat_erase fun ok _ _ _ _ _ _ => ⟨trivial, ?_, fun _ => trivial⟩
    cases ok with
    | false => exact fun _ hc _ => ⟨_, hc, rfl, rfl, rfl⟩
    | true =>
      rw [if_neg (by decide)]
      split
      · exact fun _ hc _ _ => ⟨_, hc, rfl, rfl, rfl⟩
      · exact fun _ hc _ => ⟨_, hc, rfl, rfl, rfl⟩

/-- The erase of a unit makes one call. -/
theorem calls_eraseUnit (p : Prog) (w : World) :
    ∃ ok m, (p.eraseUnit cfg w).calls =
      [.erase p.workAddr (sub32 (p.nextUnit cfg) p.workAddr) ok w.mem m] := by
  unfold Prog.eraseUnit
  rw [FlashM.calls_bind_of_quiet]
  · exact calls_erase ..
  · intro ok w'
    cases ok with
    | false => rfl
    | true =>
      by_cases h : p.nextUnit cfg < p.workEnd
      · simp [h]
      · simp [h]

theorem calls_step_erase {p : Prog} {now : ℕ} (hdue : p.workDue p.workVia = true)
    (hfresh : p.workResend = false) (hw : p.work = .erase) (w : World) :
    ∃ ok m, (p.step V cfg now w).calls =
      [.erase p.workAddr (sub32 (p.nextUnit cfg) p.workAddr) ok w.mem m] := by
  rw [step_of_due hdue hfresh, if_neg (by simp [hw])]
  exact calls_eraseUnit { p.stamp now with workReady := false } w

/-! ## What the download services leave alone -/

/-- Only the download's own fields differ. -/
def OnlyDownload (p p' : Prog) : Prop :=
  p' = { p with
    downloading := p'.downloading
    dlAddr := p'.dlAddr
    dlEnd := p'.dlEnd
    nextBlock := p'.nextBlock
    stage := p'.stage
    stageLen := p'.stageLen }

namespace OnlyDownload
variable {p p' p'' : Prog}

theorem refl (p : Prog) : OnlyDownload p p := rfl

theorem trans (h : OnlyDownload p p') (h' : OnlyDownload p' p'') : OnlyDownload p p'' := by
  unfold OnlyDownload at *
  rw [h', h]

/-- The routine is as it was. -/
theorem routine (h : OnlyDownload p p') :
    p'.work = p.work ∧ p'.workAddr = p.workAddr ∧ p'.workEnd = p.workEnd := by
  rw [h]
  exact ⟨rfl, rfl, rfl⟩

theorem paced (h : OnlyDownload p p') (hp : p.Paced) : p'.Paced := by
  rw [h]
  exact .congr (p := p) rfl hp

end OnlyDownload

/-- What every download service keeps to: its own fields, its own answers, program calls. -/
def Serves (p : Prog) (r : Prog × List UInt8) : Prop := OnlyDownload p r.1 ∧ r.2 ≠ pending

theorem serves_requestDownload {p : Prog} {req : List UInt8} :
    Sat T A G (p.requestDownload cfg req) w (fun r _ => Serves p r) (fun _ => True) := by
  refine sat_requestDownload (fun _ nrc _ => ⟨.refl p, ?_⟩) fun _ _ _ _ _ _ _ => ⟨rfl, by simp [pending, Uds.negative]⟩
  simp [pending, Uds.negative]

/-- Any property of program calls is a guarantee of the download services. -/
theorem onlyDownload_programStage (hG : ∀ c : Call, c.isProgram = true → G c) {p : Prog} :
    Sat T A G (p.programStage cfg) w (fun r _ => OnlyDownload p r.1) (fun _ => True) := by
  refine sat_programStage (fun _ => rfl) fun _ => sat_program ?_
  intro ok landed w' _ _ _ _ _
  refine ⟨hG _ rfl, ?_, fun _ => trivial⟩
  cases ok <;> rfl

theorem onlyDownload_stageBytes (hG : ∀ c : Call, c.isProgram = true → G c) {p : Prog}
    {data : List UInt8} :
    Sat True A G (p.stageBytes cfg data) w (fun r _ => OnlyDownload p r.1) (fun _ => True) := by
  induction data generalizing p w with
  | nil => exact Sat.pure (.refl p)
  | cons b bs ih =>
    unfold Prog.stageBytes
    refine Sat.ite (fun _ => ?_) fun _ => Sat.trap trivial trivial
    dsimp only
    have hstaged : OnlyDownload p (p.stageByte b) := rfl
    refine Sat.ite (fun _ => ?_) fun _ => ih.imp_post fun r _ h => hstaged.trans h
    refine Sat.andThen (onlyDownload_programStage hG) fun r w' hr => ?_
    refine Sat.ite (fun _ => ?_) fun _ => Sat.pure (hstaged.trans hr)
    exact ih.imp_post fun r' _ h => (hstaged.trans hr).trans h

theorem serves_transferData (hG : ∀ c : Call, c.isProgram = true → G c) {p : Prog}
    {req : List UInt8} :
    Sat True A G (p.transferData cfg req) w (fun r _ => Serves p r) (fun _ => True) := by
  have hrefuse : ∀ nrc, Serves p (p, Uds.negative 0x36 nrc) := fun nrc =>
    ⟨.refl p, by simp [pending, Uds.negative]⟩
  unfold Prog.transferData
  refine Sat.ite (fun _ => Sat.pure (hrefuse _)) fun _ => ?_
  refine Sat.ite (fun _ => Sat.pure (hrefuse _)) fun _ => ?_
  refine Sat.ite (fun _ => Sat.pure (hrefuse _)) fun _ => ?_
  refine Sat.ite (fun _ => Sat.pure (hrefuse _)) fun _ => ?_
  refine Sat.ite (fun _ => Sat.pure (hrefuse _)) fun _ => ?_
  refine Sat.andThen (onlyDownload_stageBytes hG) fun r w' hr => ?_
  refine Sat.ite (fun _ => Sat.pure ⟨?_, ?_⟩) fun _ => Sat.pure ⟨hr, ?_⟩
  · exact hr.trans rfl
  · simp [pending, Uds.negative]
  · simp [pending, Uds.negative]

theorem serves_transferExit (hG : ∀ c : Call, c.isProgram = true → G c) {p : Prog} :
    Sat T A G (p.transferExit cfg) w (fun r _ => Serves p r) (fun _ => True) := by
  have hpad : OnlyDownload p p.padStage := rfl
  unfold Prog.transferExit
  refine Sat.ite (fun _ => Sat.pure ⟨.refl p, by simp [pending, Uds.negative]⟩) fun _ => ?_
  refine Sat.ite (fun _ => ?_) fun _ => Sat.pure ⟨rfl, by simp [pending, Uds.negative]⟩
  refine Sat.andThen (onlyDownload_programStage hG) fun r w' hr => ?_
  refine Sat.ite (fun _ => Sat.pure ⟨?_, by simp [pending, Uds.negative]⟩) fun _ => Sat.pure ⟨hpad.trans hr, ?_⟩
  · exact (hpad.trans hr).trans rfl
  · simp [pending, Uds.negative]

/-! ## Invariants of runs -/

/-- The operations keep the invariant `I` of session and flash, and each of their calls satisfies
`G` if it satisfies `A`. -/
structure Keeps (V : Verifier) (cfg : Config) (A G : Call → Prop) (I : Prog → Mem → Prop) :
    Prop where
  continues {p p' : Prog} {m : Mem} (h : I p m) (hp : Continues p p') : I p' m
  routine {p : Prog} {m : Mem} {r : Routine} (h : I p m) (hidle : p.Idle) (hgate : p.Gated cfg)
    (hadm : r.Admitted cfg p) : I (p.start r) m
  download {p : Prog} {m : Mem} {addr size : ℕ} (h : I p m) (hidle : p.Idle) (hgate : p.Gated cfg)
    (herased : p.erased = true) (hregion : Prog.regionOk cfg addr size = true)
    (halign : addr % progWord = 0)
    (hmark : m.bytes (u32 (cfg.appBase + 32)) 4 ≠ Prog.markBytes) :
    I (p.startDownload addr size) m
  transfer {p : Prog} {req : List UInt8} {w : World} (h : I p w.mem) (hidle : p.Idle) :
    Sat True A G (p.transferData cfg req) w (fun r w' => I r.1 w'.mem)
      (fun w' => I (boot cfg none) w'.mem)
  exit {p : Prog} {w : World} (h : I p w.mem) (hidle : p.Idle) :
    Sat True A G (p.transferExit cfg) w (fun r w' => I r.1 w'.mem)
      (fun w' => I (boot cfg none) w'.mem)
  check {p : Prog} {w : World} (h : I p w.mem) (hw : p.work = .check) (hv : Verified V cfg w.mem) :
    Sat True A G (Flash.program (u32 (cfg.appBase + 32)) Prog.markWord) w
      (fun _ w' => I { p with work := .answer } w'.mem) (fun w' => I (boot cfg none) w'.mem)
  erase {p : Prog} {w : World} (h : I p w.mem) (hw : p.work = .erase) :
    Sat True A G (Flash.erase p.workAddr (sub32 (p.nextUnit cfg) p.workAddr)) w
      (fun ok w' =>
        if !ok then I { p with work := .answer } w'.mem
        else if p.nextUnit cfg < p.workEnd then I { p with workAddr := p.nextUnit cfg } w'.mem
        else I { p with workAddr := p.nextUnit cfg, erased := true, work := .answer } w'.mem)
      (fun w' => I (boot cfg none) w'.mem)

namespace Keeps
variable {I : Prog → Mem → Prop}

/-- An operation of the download services, with the bookkeeping that follows it. -/
theorem settled (h : Keeps V cfg A G I) {p₀ : Prog} {via : Via}
    {m : FlashM (Prog × List UInt8)} (hpaced : p₀.Paced)
    (hm : Sat True A G m w (fun r w' => I r.1 w'.mem) C)
    (hserves : Sat True (fun _ => True) (fun _ => True) m w (fun r _ => Serves p₀ r)
      (fun _ => True)) :
    Sat True A G (m >>= fun r => Pure.pure (r.1.settle via, r.2)) w
      (fun r w' => I r.1 w'.mem ∧ r.1.Paced) C := by
  refine Sat.andThen (hm.and hserves) fun r w' hr => Sat.pure ?_
  have hc := Continues.settle r.1 via
  exact ⟨h.continues hr.1 hc, hc.paced (hr.2.1.paced hpaced)⟩

/-- Serving one event. -/
theorem sat_serve (h : Keeps V cfg A G I) {p : Prog} {e : Event} (hI : I p w.mem)
    (hpaced : p.Paced) :
    Sat True A G (serve V cfg p e) w (fun r w' => I r.1 w'.mem ∧ r.1.Paced)
      (fun w' => I (boot cfg none) w'.mem) := by
  have hd := does V cfg p e
  generalize serve V cfg p e = m at hd
  cases hd with
  | books hc _ _ => exact Sat.pure ⟨h.continues hI hc, hc.paced hpaced⟩
  | routine he hsid hr h₀ hidle hgate hadm hc hp =>
    exact Sat.pure ⟨h.continues (h.routine (h.continues hI h₀) hidle hgate hadm) hc, hp⟩
  | download he hsid h₀ hidle =>
    refine h.settled (h₀.paced hpaced) (sat_requestDownload ?_ ?_)
      serves_requestDownload
    · intro w' _ hr
      rw [hr.mem]
      exact h.continues hI h₀
    · intro w' hr hgate her hreg hal hmark
      rw [hr.mem]
      exact h.download (h.continues hI h₀) hidle hgate her hreg hal hmark
  | transfer he hsid h₀ hidle =>
    exact h.settled (h₀.paced hpaced) (h.transfer (h.continues hI h₀) hidle)
      (serves_transferData fun _ _ => trivial)
  | exit he hsid h₀ hidle =>
    exact h.settled (h₀.paced hpaced) (h.exit (h.continues hI h₀) hidle)
      (serves_transferExit fun _ _ => trivial)
  | work hdue hfresh =>
    refine sat_step hdue hfresh (fun hw => ?_) fun hw => ?_
    · refine sat_checkAndMark ?_ ?_
      · intro w' hr p' hc hp
        rw [hr.mem]
        exact ⟨h.continues hI (hc.of_answer hp), hp⟩
      · intro w' hr hv
        refine (h.check (w := w') (hr.mem ▸ hI) hw hv).imp_post fun ok w'' hQ p' hc hp => ?_
        exact ⟨h.continues hQ hc, hp⟩
    · have hw' : p.work = .erase := (hpaced.of_due hdue hfresh).resolve_right hw
      refine (h.erase hI hw').imp_post fun ok w' hQ => ?_
      cases ok with
      | false => exact fun p' hc hp => ⟨h.continues hQ hc, hp⟩
      | true =>
        simp only [Bool.not_true, Bool.false_eq_true, if_false] at hQ ⊢
        by_cases hlt : p.nextUnit cfg < p.workEnd
        · rw [if_pos hlt] at hQ ⊢
          exact fun p' hc hp _ => ⟨h.continues hQ hc, hp⟩
        · rw [if_neg hlt] at hQ ⊢
          exact fun p' hc hp => ⟨h.continues hQ hc, hp⟩

end Keeps

/-- A step that only keeps the books. -/
theorem step_of_pure {s : State} {i : Input} {p' : Prog} {resp : List UInt8}
    (h : serve V cfg s.prog i.event = Pure.pure (p', resp)) :
    step V cfg s i = (⟨p', s.mem⟩, ⟨.done resp, []⟩) := by
  unfold step
  rw [h]
  rfl

/-- The calls of a step are those of the computation. -/
theorem calls_step (s : State) (i : Input) :
    (step V cfg s i).2.calls = (serve V cfg s.prog i.event ⟨s.mem, i.faults⟩).calls := by
  unfold step
  rcases serve V cfg s.prog i.event ⟨s.mem, i.faults⟩ with ⟨out, w, calls⟩
  cases out <;> rfl

theorem mem_step (s : State) (i : Input) :
    (step V cfg s i).1.mem = (serve V cfg s.prog i.event ⟨s.mem, i.faults⟩).world.mem := by
  unfold step
  rcases serve V cfg s.prog i.event ⟨s.mem, i.faults⟩ with ⟨out, w, calls⟩
  cases out <;> rfl

/-- What a rule for the computation says of the step of the machine. -/
theorem step_of_sat {s : State} {i : Input} {Q : Prog × List UInt8 → World → Prop}
    (h : Sat T A G (serve V cfg s.prog i.event) ⟨s.mem, i.faults⟩ Q C)
    (hA : ∀ c ∈ (step V cfg s i).2.calls, A c) :
    (∀ c ∈ (step V cfg s i).2.calls, G c) ∧
      ((∃ resp w, (step V cfg s i).2.out = .done resp ∧ (step V cfg s i).1.mem = w.mem ∧
          Q ((step V cfg s i).1.prog, resp) w) ∨
        (∃ w, (step V cfg s i).2.out = .cut ∧ (step V cfg s i).1 = ⟨boot cfg none, w.mem⟩ ∧ C w) ∨
        ∃ w, (step V cfg s i).2.out = .trap ∧ (step V cfg s i).1 = ⟨boot cfg none, w.mem⟩ ∧
          T ∧ C w) := by
  unfold Sat at h
  unfold step at hA ⊢
  revert h hA
  rcases serve V cfg s.prog i.event ⟨s.mem, i.faults⟩ with ⟨out, w, calls⟩
  cases out with
  | done r =>
    intro h hA
    obtain ⟨hG, hQ⟩ := h hA
    exact ⟨hG, .inl ⟨r.2, w, rfl, rfl, hQ⟩⟩
  | cut =>
    intro h hA
    obtain ⟨hG, hC⟩ := h hA
    exact ⟨hG, .inr (.inl ⟨w, rfl, rfl, hC⟩)⟩
  | trap =>
    intro h hA
    obtain ⟨hG, hC⟩ := h hA
    exact ⟨hG, .inr (.inr ⟨w, rfl, rfl, hC⟩)⟩

/-- What a monitor of the computation says of the step of the machine. -/
theorem step_of_watches {μ : Type} {M : Monitor μ} {b : μ} {s : State} {i : Input}
    {Q : Prog × List UInt8 → World → μ → Prop}
    (h : M.Watches b (serve V cfg s.prog i.event) ⟨s.mem, i.faults⟩ Q) :
    M.Allows b (step V cfg s i).2.calls ∧ ∀ resp, (step V cfg s i).2.out = .done resp →
      ∃ w, Q ((step V cfg s i).1.prog, resp) w (M.after b (step V cfg s i).2.calls) := by
  unfold Monitor.Watches at h
  unfold step
  revert h
  rcases serve V cfg s.prog i.event ⟨s.mem, i.faults⟩ with ⟨out, w, calls⟩
  cases out with
  | done r =>
    rintro ⟨hcalls, hQ⟩
    refine ⟨hcalls, fun resp hresp => ⟨w, ?_⟩⟩
    obtain rfl := Outcome.done.inj hresp
    exact hQ r rfl
  | cut => exact fun h => ⟨h.1, fun _ h => nomatch h⟩
  | trap => exact fun h => ⟨h.1, fun _ h => nomatch h⟩

/-- A power cut, or a run-time error, leaves a bootloader after a reset. -/
theorem step_lost {s : State} {i : Input} (h : ∀ resp, (step V cfg s i).2.out ≠ .done resp) :
    (step V cfg s i).1.prog = boot cfg none := by
  unfold step at h ⊢
  revert h
  rcases serve V cfg s.prog i.event ⟨s.mem, i.faults⟩ with ⟨out, w, calls⟩
  cases out with
  | done r => exact fun h => absurd rfl (h r.2)
  | cut => exact fun _ => rfl
  | trap => exact fun _ => rfl

theorem paced_boot (handoff : Option (ℕ × Via)) : (boot cfg handoff).Paced :=
  (Continues.boot ({} : Prog) handoff).paced (.of_none rfl)

namespace Keeps
variable {I : Prog → Mem → Prop}

/-- One step of the machine. -/
theorem step (h : Keeps V cfg A G I) {s : State} {i : Input} (hI : I s.prog s.mem)
    (hp : s.prog.Paced) (hA : ∀ c ∈ (step V cfg s i).2.calls, A c) :
    (I (step V cfg s i).1.prog (step V cfg s i).1.mem ∧ (step V cfg s i).1.prog.Paced) ∧
      ∀ c ∈ (Boot.step V cfg s i).2.calls, G c := by
  obtain ⟨hG, hout⟩ := step_of_sat (h.sat_serve (w := ⟨s.mem, i.faults⟩) hI hp) hA
  refine ⟨?_, hG⟩
  rcases hout with ⟨resp, w, -, hm, hQ⟩ | ⟨w, -, hs, hC⟩ | ⟨w, -, hs, -, hC⟩
  · rw [hm]
    exact hQ
  · rw [hs]
    exact ⟨hC, paced_boot none⟩
  · rw [hs]
    exact ⟨hC, paced_boot none⟩

/-- An invariant that the operations keep holds after every run, and every call of the run
satisfies the guarantee. -/
theorem run (h : Keeps V cfg A G I) {handoff : Option (ℕ × Via)} {mem : Mem}
    (h0 : I (boot cfg handoff) mem) (is : List Input)
    (hA : ∀ x ∈ Trace.history (Boot.step V cfg) (start cfg handoff mem) is,
      ∀ c ∈ x.label.calls, A c) :
    (I (Trace.final (Boot.step V cfg) (start cfg handoff mem) is).prog
        (Trace.final (Boot.step V cfg) (start cfg handoff mem) is).mem ∧
      (Trace.final (Boot.step V cfg) (start cfg handoff mem) is).prog.Paced) ∧
      ∀ x ∈ Trace.history (Boot.step V cfg) (start cfg handoff mem) is,
        ∀ c ∈ x.label.calls, G c := by
  refine Trace.run_induction_of
    (fun x : Trace.Entry State Input Label => ∀ c ∈ x.label.calls, A c)
    (fun (s : State) hist => (I s.prog s.mem ∧ s.prog.Paced) ∧
      ∀ x ∈ hist, ∀ c ∈ x.label.calls, G c)
    ⟨⟨h0, paced_boot handoff⟩, by simp⟩ ?_ is hA
  rintro es i ⟨⟨hI, hp⟩, hG⟩ hc
  obtain ⟨hkept, hG'⟩ := h.step hI hp hc
  refine ⟨hkept, fun x hx => ?_⟩
  rcases List.mem_append.mp hx with hx | hx
  · exact hG x hx
  · rw [List.mem_singleton.mp hx]
    exact hG'

end Keeps

/-- The gate of a routine holds along every run. -/
theorem paced_step {s : State} (hp : s.prog.Paced) (i : Input) :
    (step V cfg s i).1.prog.Paced := by
  have hany : Keeps V cfg (fun _ => True) (fun _ => True) (fun _ _ => True) := by
    refine ⟨fun _ _ => trivial, fun _ _ _ _ => trivial, fun _ _ _ _ _ _ _ => trivial,
      fun _ _ => .any, fun _ _ => .any, fun _ _ _ => .any, fun _ _ => Sat.any.imp_post ?_⟩
    intro ok _ _
    split_ifs
  exact (hany.step trivial hp fun _ _ => trivial).1.2

end BloblyEmb.Boot
