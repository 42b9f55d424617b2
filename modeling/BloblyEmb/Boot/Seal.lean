import BloblyEmb.Boot.Contract

/-!
# The valid mark is a seal

The valid mark is the bootloader's to write. No download reaches its word, only the check routine
programs it, over content it has verified, and while it stands nothing is programmed: what was
verified can be erased but not changed.
-/
namespace BloblyEmb.Boot
open Flash

variable {V : Verifier} {cfg : Config} {T : Prop} {A G : Call → Prop} {w : World}

/-- The mark word reads as the valid mark. -/
def MarkValid (cfg : Config) (m : Mem) : Prop :=
  m.bytes (u32 (cfg.appBase + 32)) 4 = Prog.markBytes

/-- The call works apart from the mark word. -/
def Apart (cfg : Config) (c : Call) : Prop := ∀ x ∈ c.range, ¬ MarkWord cfg x

/-- The mark word is as it was. -/
def MarkKept (cfg : Config) (m m' : Mem) : Prop := ∀ x, MarkWord cfg x → m' x = m x

/-- Every cell is as it was, or a cell that `p` admits and that was erased. -/
def Erased (p : ℕ → Prop) (m m' : Mem) : Prop := ∀ x, m' x = m x ∨ (m' x = none ∧ p x)

theorem MarkKept.refl (m : Mem) : MarkKept cfg m m := fun _ _ => rfl

theorem MarkKept.trans {m m' m'' : Mem} (h : MarkKept cfg m m') (h' : MarkKept cfg m' m'') :
    MarkKept cfg m m'' := fun x hx => (h' x hx).trans (h x hx)

theorem MarkKept.valid {m m' : Mem} (h : MarkKept cfg m m') (hv : MarkValid cfg m') :
    MarkValid cfg m := by
  refine Eq.trans (Mem.bytes_congr fun x hx hx' => (h x ⟨hx, ?_⟩).symm) hv
  simp only [progWord]
  omega

/-- No erase, complete or not, makes a mark: none of its bytes reads as erased. -/
theorem Erased.valid {p : ℕ → Prop} {m m' : Mem} (h : Erased p m m') (hv : MarkValid cfg m') :
    MarkValid cfg m := by
  refine Eq.trans (Mem.bytes_congr fun x hx hx' => ?_) hv
  rcases h x with heq | ⟨hnone, -⟩
  · exact heq.symm
  · have hread : m'.byte x = Prog.markBytes.getD (x - u32 (cfg.appBase + 32)) 0 := by
      rw [← hv, Mem.getD_bytes _ _ _ _ _ (by omega)]
      congr 1
      omega
    have hne : ∀ i < 4, Prog.markBytes.getD i 0 ≠ 0xFF := by decide
    rw [Mem.byte, hnone] at hread
    exact absurd hread.symm (hne _ (by omega))

/-- Two different words do not meet. -/
theorem word_disjoint {a b x : ℕ} (ha : progWord ∣ a) (hb : progWord ∣ b) (hne : a ≠ b)
    (hx : a ≤ x) (hx' : x < a + progWord) : ¬ (b ≤ x ∧ x < b + progWord) := by
  obtain ⟨i, rfl⟩ := ha
  obtain ⟨j, rfl⟩ := hb
  simp only [progWord] at *
  omega

theorem dvd_u32 {n : ℕ} (h : progWord ∣ n) : progWord ∣ u32 n :=
  (Nat.dvd_mod_iff (by decide)).mpr h

theorem dvd_mark (hbase : progWord ∣ cfg.appBase) : progWord ∣ u32 (cfg.appBase + 32) :=
  dvd_u32 (Nat.dvd_add hbase (by decide))

/-! ## The download services -/

/-- A download is under way only while the mark does not stand, and no routine works then. -/
structure Sealed (cfg : Config) (p : Prog) (m : Mem) : Prop where
  stage : p.stage.length = progWord
  stageLen : p.stageLen ≤ progWord
  aligned : p.downloading = true → progWord ∣ p.dlAddr
  idle : p.downloading = true → p.Idle
  unmarked : p.downloading = true → ¬ MarkValid cfg m

namespace Sealed
variable {p p' : Prog} {m m' : Mem}

theorem of_idle (hs : p.stage.length = progWord) (hl : p.stageLen ≤ progWord)
    (hd : p.downloading = false) : Sealed cfg p m := by
  refine ⟨hs, hl, ?_, ?_, ?_⟩ <;> intro h <;> exact absurd (hd.symm.trans h) (by decide)

theorem continues (h : Sealed cfg p m) (hc : Continues p p') : Sealed cfg p' m where
  stage := by
    rcases hc.stage with ⟨hs, -⟩ | ⟨hs, -⟩
    · rw [hs, h.stage]
    · rw [hs]
      rfl
  stageLen := by
    rcases hc.stage with ⟨-, hl⟩ | ⟨-, hl⟩
    · rw [hl]
      exact h.stageLen
    · rw [hl]
      exact Nat.zero_le _
  aligned hd := by
    obtain ⟨hd', -, -, ha, -, -⟩ := hc.downloading hd
    rw [ha]
    exact h.aligned hd'
  idle hd := by
    have hi := h.idle (hc.downloading hd).1
    exact ⟨fun hw => hi.1 (hc.erase hw).1, fun hw => hi.2 (hc.check hw)⟩
  unmarked hd := h.unmarked (hc.downloading hd).1

theorem continues_idle (h : Sealed cfg p m) (hd : p.downloading = false) (hc : Continues p p') :
    Sealed cfg p' m' := continues (of_idle h.stage h.stageLen hd) hc

theorem boot (handoff : Option (ℕ × Via)) : Sealed cfg (boot cfg handoff) m :=
  continues_idle (p := {}) (m := m) (of_idle rfl (Nat.zero_le _) rfl) rfl (.boot _ handoff)

end Sealed

theorem apart_programStage (hG : ∀ c, Apart cfg c → G c) (hbase : progWord ∣ cfg.appBase)
    {p : Prog} (hs : p.stage.length = progWord) (ha : progWord ∣ p.dlAddr) :
    Sat T A G (p.programStage cfg) w
      (fun r w' => MarkKept cfg w.mem w'.mem ∧ (r.2 = true → r.1 = p.advance) ∧
        (r.2 = false → r.1 = p)) (fun w' => MarkKept cfg w.mem w'.mem) := by
  refine sat_programStage (fun _ => ⟨.refl _, fun _ => rfl, nofun⟩) fun hne => sat_program ?_
  intro ok landed w' hland _ hm _ _
  have hword : ∀ x, p.dlAddr ≤ x → x < p.dlAddr + progWord → ¬ MarkWord cfg x := fun x hx hx' =>
    word_disjoint ha (dvd_mark hbase) hne hx hx'
  have hkept : MarkKept cfg w.mem w'.mem := fun x hx => by
    rw [hm]
    refine Mem.write_outside _ _ x _ ?_
    by_contra hin
    have hlen := hland.length_le
    exact hword x (by omega) (by omega) hx
  refine ⟨hG _ fun x hx => hword x hx.1 (hs ▸ hx.2), ⟨hkept, ?_, ?_⟩, fun _ => hkept⟩
  · exact fun h => if_pos h
  · exact fun h => if_neg (by simpa using h)

theorem apart_stageBytes (hG : ∀ c, Apart cfg c → G c) (hbase : progWord ∣ cfg.appBase)
    {p : Prog} {data : List UInt8} (h : Sealed cfg p w.mem) (hd : p.downloading = true) :
    Sat True A G (p.stageBytes cfg data) w
      (fun r w' => Sealed cfg r.1 w'.mem ∧ MarkKept cfg w.mem w'.mem)
      (fun w' => MarkKept cfg w.mem w'.mem) := by
  induction data generalizing p w with
  | nil => exact Sat.pure ⟨h, .refl _⟩
  | cons b bs ih =>
    unfold Prog.stageBytes
    refine Sat.ite (fun hlt => ?_) fun _ => Sat.trap trivial (.refl _)
    dsimp only
    have hstaged : Sealed cfg (p.stageByte b) w.mem :=
      ⟨by simpa [Prog.stageByte] using h.stage, h.stage ▸ hlt, h.aligned, h.idle, h.unmarked⟩
    refine Sat.ite (fun _ => ?_) fun _ => ih hstaged hd
    refine Sat.andThen (apart_programStage hG hbase hstaged.stage (h.aligned hd)) ?_
    rintro ⟨p', ok⟩ w' ⟨hkept, hok, hno⟩
    have hunmarked : ¬ MarkValid cfg w'.mem := fun hv => h.unmarked hd (hkept.valid hv)
    cases ok with
    | true =>
      obtain rfl := hok rfl
      refine Sat.ite (fun _ => ?_) fun h => absurd rfl h
      have hnext : Sealed cfg (p.stageByte b).advance w'.mem :=
        ⟨hstaged.stage, Nat.zero_le _,
          fun _ => dvd_u32 (Nat.dvd_add (h.aligned hd) (Nat.dvd_refl _)), h.idle,
          fun _ => hunmarked⟩
      exact (ih hnext hd).imp (fun r w'' hr => ⟨hr.1, hkept.trans hr.2⟩) fun w'' => hkept.trans
    | false =>
      obtain rfl := hno rfl
      refine Sat.ite (fun h => (by cases h)) fun _ => Sat.pure ⟨?_, hkept⟩
      exact ⟨hstaged.stage, hstaged.stageLen, h.aligned, h.idle, fun _ => hunmarked⟩

/-- What a download service makes of the seal. -/
def Respects (cfg : Config) (m : Mem) (w' : World) : Prop :=
  MarkKept cfg m w'.mem ∧ (MarkValid cfg m → w'.mem = m)

theorem Respects.refl : Respects cfg w.mem w := ⟨.refl _, fun _ => rfl⟩

theorem respects_of_unmarked {m : Mem} {w' : World} (h : MarkKept cfg m w'.mem)
    (hm : ¬ MarkValid cfg m) : Respects cfg m w' := ⟨h, fun hv => absurd hv hm⟩

theorem respects_transferData (hbase : progWord ∣ cfg.appBase) {p : Prog} {req : List UInt8}
    (h : Sealed cfg p w.mem) :
    Sat True A (fun c => ¬ MarkValid cfg w.mem ∧ Apart cfg c) (p.transferData cfg req) w
      (fun r w' => Sealed cfg r.1 w'.mem ∧ Respects cfg w.mem w')
      (fun w' => Respects cfg w.mem w') := by
  unfold Prog.transferData
  refine Sat.ite (fun _ => Sat.pure ⟨h, .refl⟩) fun hd => ?_
  refine Sat.ite (fun _ => Sat.pure ⟨h, .refl⟩) fun _ => ?_
  refine Sat.ite (fun _ => Sat.pure ⟨h, .refl⟩) fun _ => ?_
  refine Sat.ite (fun _ => Sat.pure ⟨h, .refl⟩) fun _ => ?_
  refine Sat.ite (fun _ => Sat.pure ⟨h, .refl⟩) fun _ => ?_
  have hdown : p.downloading = true := by simpa using hd
  have hm := h.unmarked hdown
  refine Sat.andThen ((apart_stageBytes (fun c hc => ⟨hm, hc⟩) hbase h hdown).imp
    (fun _ _ => id) fun w' hw' => respects_of_unmarked hw' hm) fun r w' hr => ?_
  have hresp := respects_of_unmarked hr.2 hm
  refine Sat.ite (fun _ => Sat.pure ⟨?_, hresp⟩) fun _ => Sat.pure ⟨hr.1, hresp⟩
  exact ⟨hr.1.stage, hr.1.stageLen, hr.1.aligned, hr.1.idle, hr.1.unmarked⟩

theorem respects_transferExit (hbase : progWord ∣ cfg.appBase) {p : Prog}
    (h : Sealed cfg p w.mem) :
    Sat True A (fun c => ¬ MarkValid cfg w.mem ∧ Apart cfg c) (p.transferExit cfg) w
      (fun r w' => Sealed cfg r.1 w'.mem ∧ Respects cfg w.mem w')
      (fun w' => Respects cfg w.mem w') := by
  unfold Prog.transferExit
  refine Sat.ite (fun _ => Sat.pure ⟨h, .refl⟩) fun hd => ?_
  refine Sat.ite (fun _ => ?_) fun _ => Sat.pure ⟨.of_idle h.stage h.stageLen rfl, .refl⟩
  have hdown : p.downloading = true := by simpa using hd
  have hm := h.unmarked hdown
  have hpad : p.padStage.stage.length = progWord := by
    have hs := h.stage
    have hlen := h.stageLen
    simp only [Prog.padStage, List.length_append, List.length_take, List.length_replicate]
    omega
  refine Sat.andThen ((apart_programStage (p := p.padStage) (fun c hc => ⟨hm, hc⟩) hbase hpad
    (h.aligned hdown)).imp (fun _ _ => id) fun w' hw' => respects_of_unmarked hw' hm) ?_
  rintro ⟨p', ok⟩ w' ⟨hkept, hok, hno⟩
  have hresp := respects_of_unmarked hkept hm
  cases ok with
  | true =>
    obtain rfl := hok rfl
    refine Sat.ite (fun _ => Sat.pure ⟨?_, hresp⟩) fun h => absurd rfl h
    exact .of_idle hpad (Nat.zero_le _) rfl
  | false =>
    obtain rfl := hno rfl
    refine Sat.ite (fun h => (by cases h)) fun _ => Sat.pure ⟨?_, hresp⟩
    exact ⟨hpad, h.stageLen, h.aligned, h.idle, fun _ hv => hm (hkept.valid hv)⟩

theorem respects_requestDownload {p : Prog} {req : List UInt8} (h : Sealed cfg p w.mem)
    (hidle : p.Idle) :
    Sat True A (fun c => ¬ MarkValid cfg w.mem ∧ Apart cfg c) (p.requestDownload cfg req) w
      (fun r w' => Sealed cfg r.1 w'.mem ∧ Respects cfg w.mem w')
      (fun w' => Respects cfg w.mem w') := by
  have hread : ∀ w' : World, w.Reads w' → Respects cfg w.mem w' := fun w' hr =>
    ⟨fun x _ => by rw [hr.mem], fun _ => hr.mem⟩
  refine sat_requestDownload (fun w' _ hr => ⟨?_, hread w' hr⟩) fun w' hr _ _ _ hal hmark =>
    ⟨?_, hread w' hr⟩
  · rw [hr.mem]
    exact h
  · rw [hr.mem]
    exact ⟨h.stage, Nat.zero_le _, fun _ => Nat.dvd_of_mod_eq_zero hal, fun _ => hidle,
      fun _ => hmark⟩

/-! ## One step -/

/-- The step is a check that programs the mark, over content it has verified. -/
structure Marks (V : Verifier) (cfg : Config) (x : Trace.Entry State Input Label) : Prop where
  step : ∃ now, x.event.event = .step now
  work : x.before.prog.work = .check
  verified : Verified V cfg x.before.mem
  calls : ∃ ok, x.label.calls =
    [.program (u32 (cfg.appBase + 32)) Prog.markWord ok x.before.mem x.after.mem]
  kept : ∀ a, ¬ MarkWord cfg a → x.after.mem a = x.before.mem a

/-- `a` lies in the range of an erase call among `cs`. -/
def InErase (cs : List Call) (a : ℕ) : Prop := ∃ c ∈ cs, c.isErase = true ∧ a ∈ c.range

/-- The step sets no mark, and while the mark stands it programs nothing. -/
structure Plain (cfg : Config) (x : Trace.Entry State Input Label) : Prop where
  programs : ∀ c ∈ x.label.calls, c.isProgram = true →
    ¬ MarkValid cfg x.before.mem ∧ Apart cfg c
  valid : MarkValid cfg x.after.mem → MarkValid cfg x.before.mem
  kept : MarkValid cfg x.before.mem → Erased (InErase x.label.calls) x.before.mem x.after.mem

/-- A step that makes no call. -/
theorem plain_of_quiet {x : Trace.Entry State Input Label} (hcalls : x.label.calls = [])
    (hmem : x.after.mem = x.before.mem) : Plain cfg x := by
  refine ⟨?_, ?_, fun _ a => ?_⟩
  · rw [hcalls]
    simp
  · rw [hmem]
    exact id
  · exact .inl (by rw [hmem])

/-- A step of a download service. -/
theorem plain_of_service {s : State} {i : Input} {via : Via} {m : FlashM (Prog × List UInt8)}
    (hm : serve V cfg s.prog i.event = m >>= fun r => Pure.pure (r.1.settle via, r.2))
    (h : Sat True (fun _ => True) (fun c => ¬ MarkValid cfg s.mem ∧ Apart cfg c) m
      ⟨s.mem, i.faults⟩ (fun r w' => Sealed cfg r.1 w'.mem ∧ Respects cfg s.mem w')
      (fun w' => Respects cfg s.mem w')) :
    Sealed cfg (step V cfg s i).1.prog (step V cfg s i).1.mem ∧
      Plain cfg (Trace.entry (step V cfg) s i) := by
  have hserve : Sat True (fun _ => True) (fun c => ¬ MarkValid cfg s.mem ∧ Apart cfg c)
      (serve V cfg s.prog i.event) ⟨s.mem, i.faults⟩
      (fun r w' => Sealed cfg r.1 w'.mem ∧ Respects cfg s.mem w')
      (fun w' => Respects cfg s.mem w') := by
    rw [hm]
    exact Sat.andThen h fun r w' hr => Sat.pure ⟨hr.1.continues (.settle r.1 via), hr.2⟩
  obtain ⟨hcalls, hout⟩ := step_of_sat hserve fun _ _ => trivial
  have hsealed : Sealed cfg (step V cfg s i).1.prog (step V cfg s i).1.mem ∧
      ∃ w', (step V cfg s i).1.mem = w'.mem ∧ Respects cfg s.mem w' := by
    rcases hout with ⟨resp, w', -, hmem, hs, hr⟩ | ⟨w', -, hs, hr⟩ | ⟨w', -, hs, -, hr⟩
    · exact ⟨hmem ▸ hs, w', hmem, hr⟩
    · rw [hs]
      exact ⟨.boot none, w', rfl, hr⟩
    · rw [hs]
      exact ⟨.boot none, w', rfl, hr⟩
  obtain ⟨hs, w', hmem, hkept, hsame⟩ := hsealed
  refine ⟨hs, fun c hc _ => hcalls c hc, fun hv => hkept.valid (hmem ▸ hv), fun hv a => .inl ?_⟩
  rw [Trace.entry_after, Trace.entry_before, hmem, hsame hv]

/-- A due step of a routine leaves no download behind. -/
theorem sealed_of_work {s : State} {i : Input} {now : ℕ} (h : Sealed cfg s.prog s.mem)
    (hp : s.prog.Paced) (hi : i.event = .step now) (hdue : s.prog.workDue s.prog.workVia = true)
    (hfresh : s.prog.workResend = false) :
    Sealed cfg (step V cfg s i).1.prog (step V cfg s i).1.mem := by
  have hd : s.prog.downloading = false := by
    by_contra hd
    have hidle := h.idle (by simpa using hd)
    rcases hp.of_due hdue hfresh with hw | hw
    · exact hidle.1 hw
    · exact hidle.2 hw
  have hsat : Sat True (fun _ => True) (fun _ => True) (serve V cfg s.prog i.event)
      ⟨s.mem, i.faults⟩ (fun r _ => ∃ q : Prog, Continues q r.1 ∧ q.stage = s.prog.stage ∧
        q.stageLen = s.prog.stageLen ∧ q.downloading = s.prog.downloading) (fun _ => True) := by
    rw [hi]
    exact sat_step_apart hdue hfresh
  obtain ⟨-, hout⟩ := step_of_sat hsat fun _ _ => trivial
  rcases hout with ⟨resp, w', -, -, q, hc, hst, hl, hq⟩ | ⟨w', -, hs, -⟩ | ⟨w', -, hs, -⟩
  · exact .continues_idle (m := s.mem) (.of_idle (hst ▸ h.stage) (hl ▸ h.stageLen) (hq.trans hd))
      (hq.trans hd) hc
  · rw [hs]
    exact .boot none
  · rw [hs]
    exact .boot none

/-- A due step of a check marks, or makes no call. -/
theorem marks_of_check {s : State} {i : Input} {now : ℕ} (hi : i.event = .step now)
    (hdue : s.prog.workDue s.prog.workVia = true) (hfresh : s.prog.workResend = false)
    (hw : s.prog.work = .check) :
    Plain cfg (Trace.entry (step V cfg) s i) ∨ Marks V cfg (Trace.entry (step V cfg) s i) := by
  have hserve : serve V cfg s.prog i.event =
      { s.prog.stamp now with workReady := false }.checkUnit V cfg := by
    rw [hi]
    exact (step_of_due hdue hfresh).trans (if_pos hw)
  have hcalls : (step V cfg s i).2.calls = (Prog.checkAndMark V cfg ⟨s.mem, i.faults⟩).calls := by
    rw [calls_step, hserve]
    exact FlashM.calls_bind_pure _ _ _
  have hmem : (step V cfg s i).1.mem = (Prog.checkAndMark V cfg ⟨s.mem, i.faults⟩).world.mem := by
    rw [mem_step, hserve]
    exact congrArg World.mem (FlashM.world_bind_pure _ _ _)
  obtain ⟨w', hr, ⟨hv, hrun⟩ | ⟨-, hrun⟩⟩ := checkAndMark_spec V cfg ⟨s.mem, i.faults⟩
  · right
    rw [hrun] at hcalls hmem
    obtain ⟨ok, hcall⟩ := calls_program (u32 (cfg.appBase + 32)) Prog.markWord w'
    refine ⟨⟨now, hi⟩, hw, hv, ⟨ok, ?_⟩, fun a ha => ?_⟩
    · rw [Trace.entry_label, Trace.entry_before, Trace.entry_after, hcalls, hcall, hmem, hr.mem]
    · rw [Trace.entry_before, Trace.entry_after, hmem]
      refine (program_outside _ _ w' ?_).trans (congrFun hr.mem a)
      rw [length_markWord]
      by_contra hin
      exact ha ⟨by omega, by simp only [progWord]; omega⟩
  · left
    rw [hrun] at hcalls hmem
    exact plain_of_quiet hcalls (hmem.trans hr.mem)

/-- A due step of an erase sets no mark. -/
theorem plain_of_erase {s : State} {i : Input} {now : ℕ} (hi : i.event = .step now)
    (hdue : s.prog.workDue s.prog.workVia = true) (hfresh : s.prog.workResend = false)
    (hw : s.prog.work = .erase) : Plain cfg (Trace.entry (step V cfg) s i) := by
  have hserve : serve V cfg s.prog i.event = s.prog.step V cfg now := by
    rw [hi]
    rfl
  obtain ⟨ok, m', hcalls⟩ : ∃ ok m', (s.prog.step V cfg now ⟨s.mem, i.faults⟩).calls =
      [.erase s.prog.workAddr (sub32 (s.prog.nextUnit cfg) s.prog.workAddr) ok s.mem m'] :=
    calls_step_erase hdue hfresh hw _
  rw [← hserve, ← calls_step] at hcalls
  have herased : Erased (InErase (step V cfg s i).2.calls) s.mem (step V cfg s i).1.mem := by
    have hsat : Sat True (fun _ => True) (fun _ => True) (s.prog.step V cfg now)
        ⟨s.mem, i.faults⟩
        (fun _ w' => Erased (InErase (step V cfg s i).2.calls) s.mem w'.mem)
        (fun w' => Erased (InErase (step V cfg s i).2.calls) s.mem w'.mem) := by
      refine sat_step hdue hfresh (fun hc => by simp [hw] at hc) fun _ => ?_
      refine sat_erase fun ok' p w' hp _ hm _ => ?_
      have hwiped : Erased (InErase (step V cfg s i).2.calls) s.mem w'.mem := by
        intro x
        rw [hm, hcalls]
        by_cases hx : p x = true
        · exact .inr ⟨by simp [Mem.wipe, hx], _, List.mem_singleton_self _, rfl, hp x hx⟩
        · exact .inl (Mem.wipe_of_not _ _ _ (by simpa using hx))
      refine ⟨trivial, ?_, fun _ => hwiped⟩
      split_ifs
      · exact fun _ _ _ => hwiped
      · exact fun _ _ _ _ => hwiped
      · exact fun _ _ _ => hwiped
    rw [← hserve] at hsat
    obtain ⟨-, hout⟩ := step_of_sat hsat fun _ _ => trivial
    rcases hout with ⟨resp, w', -, hm, h⟩ | ⟨w', -, hs, h⟩ | ⟨w', -, hs, -, h⟩
    · rw [hm]
      exact h
    · rw [hs]
      exact h
    · rw [hs]
      exact h
  refine ⟨fun c hc hprog => ?_, fun hv => herased.valid hv, fun _ => herased⟩
  rw [Trace.entry_label, hcalls, List.mem_singleton] at hc
  rw [hc] at hprog
  cases hprog

/-- Every step is plain or marks verified content. -/
theorem plain_or_marks (hbase : progWord ∣ cfg.appBase) {s : State} (i : Input)
    (h : Sealed cfg s.prog s.mem) (hp : s.prog.Paced) :
    Sealed cfg (step V cfg s i).1.prog (step V cfg s i).1.mem ∧
      (Plain cfg (Trace.entry (step V cfg) s i) ∨ Marks V cfg (Trace.entry (step V cfg) s i)) := by
  have hd := does V cfg s.prog i.event
  generalize hm : serve V cfg s.prog i.event = m at hd
  generalize hi : i.event = e at hd
  cases hd with
  | books hc _ _ =>
    have hplain : Plain cfg (Trace.entry (step V cfg) s i) := plain_of_quiet
      (by rw [Trace.entry_label, step_of_pure hm]) (by rw [Trace.entry_after, step_of_pure hm]; rfl)
    rw [step_of_pure hm]
    exact ⟨h.continues hc, .inl hplain⟩
  | @routine _ _ _ _ r p₀ p' _ _ _ h₀ _ _ hadm hc _ =>
    have hplain : Plain cfg (Trace.entry (step V cfg) s i) := plain_of_quiet
      (by rw [Trace.entry_label, step_of_pure hm]) (by rw [Trace.entry_after, step_of_pure hm]; rfl)
    have h' := h.continues h₀
    have hstart : Sealed cfg (p₀.start r) s.mem ∧ (p₀.start r).downloading = false := by
      cases r with
      | erase addr size => exact ⟨.of_idle h'.stage h'.stageLen rfl, rfl⟩
      | check => exact ⟨.of_idle h'.stage h'.stageLen hadm, hadm⟩
    rw [step_of_pure hm]
    exact ⟨.continues_idle hstart.1 hstart.2 hc, .inl hplain⟩
  | download _ _ h₀ hidle =>
    exact (plain_of_service hm (respects_requestDownload (h.continues h₀) hidle)).imp_right .inl
  | transfer _ _ h₀ _ =>
    exact (plain_of_service hm (respects_transferData hbase (h.continues h₀))).imp_right .inl
  | exit _ _ h₀ _ =>
    exact (plain_of_service hm (respects_transferExit hbase (h.continues h₀))).imp_right .inl
  | work hdue hfresh =>
    refine ⟨sealed_of_work h hp hi hdue hfresh, ?_⟩
    rcases hp.of_due hdue hfresh with hw | hw
    · exact .inl (plain_of_erase hi hdue hfresh hw)
    · exact marks_of_check hi hdue hfresh hw

/-! ## Runs -/

/-- The flash `m` holds what was verified when the mark was last programmed: since then nothing
was programmed, and a byte apart from the mark is as it was or was erased. -/
def HoldsVerified (V : Verifier) (cfg : Config) (hist : List (Trace.Entry State Input Label))
    (m : Mem) : Prop :=
  ∃ h₁ x h₂, hist = h₁ ++ x :: h₂ ∧ Marks V cfg x ∧
    (∀ c ∈ calls h₂, c.isProgram = false) ∧
    ∀ a, ¬ MarkWord cfg a → m a = x.before.mem a ∨ (m a = none ∧ InErase (calls h₂) a)

/-- What was verified last stays verified over a plain step that leaves the mark standing. -/
theorem HoldsVerified.plain {hist : List (Trace.Entry State Input Label)}
    {y : Trace.Entry State Input Label} (h : HoldsVerified V cfg hist y.before.mem)
    (hy : Plain cfg y) (hv : MarkValid cfg y.before.mem) :
    HoldsVerified V cfg (hist ++ [y]) y.after.mem := by
  obtain ⟨h₁, x, h₂, rfl, hx, hprog, hcells⟩ := h
  refine ⟨h₁, x, h₂ ++ [y], by simp, hx, fun c hc => ?_, fun a ha => ?_⟩
  · rw [calls_snoc, List.mem_append] at hc
    rcases hc with hc | hc
    · exact hprog c hc
    · by_contra hp
      exact (hy.programs c hc (by simpa using hp)).1 hv
  · rw [calls_snoc]
    have hlater : ∀ {a}, InErase (calls h₂) a → InErase (calls h₂ ++ y.label.calls) a :=
      fun ⟨c, hc, hr⟩ => ⟨c, List.mem_append_left _ hc, hr⟩
    rcases hy.kept hv a with heq | ⟨hnone, c, hc, hr⟩
    · rcases hcells a ha with hsame | ⟨hnone, hin⟩
      · exact .inl (heq.trans hsame)
      · exact .inr ⟨heq.trans hnone, hlater hin⟩
    · exact .inr ⟨hnone, c, List.mem_append_right _ hc, hr⟩

/-- Along every run each step is plain or marks verified content, and while the mark stands the
flash holds what was verified. -/
theorem sealed_run (V : Verifier) (hbase : progWord ∣ cfg.appBase) (handoff : Option (ℕ × Via))
    {mem : Mem} (hmark : ¬ MarkValid cfg mem) (is : List Input) :
    (MarkValid cfg (Trace.final (step V cfg) (start cfg handoff mem) is).mem →
      HoldsVerified V cfg (Trace.history (step V cfg) (start cfg handoff mem) is)
        (Trace.final (step V cfg) (start cfg handoff mem) is).mem) ∧
      Trace.Along (fun _ x => Plain cfg x ∨ Marks V cfg x)
        (Trace.history (step V cfg) (start cfg handoff mem) is) := by
  have hall : Trace.Along (fun _ _ => True)
      (Trace.history (step V cfg) (start cfg handoff mem) is) := fun _ _ _ _ => trivial
  refine (Trace.run_along (I := fun (s : State) hist =>
    (Sealed cfg s.prog s.mem ∧ s.prog.Paced) ∧ (MarkValid cfg s.mem → HoldsVerified V cfg hist s.mem))
    ⟨⟨.boot handoff, paced_boot handoff⟩, fun hv => absurd hv hmark⟩ ?_ is hall).imp_left And.right
  rintro es i ⟨⟨h, hp⟩, hheld⟩ -
  obtain ⟨hs, hx⟩ := plain_or_marks (V := V) hbase i h hp
  refine ⟨⟨⟨hs, paced_step hp i⟩, fun hv => ?_⟩, hx⟩
  rcases hx with hplain | hmarks
  · have hbefore := hplain.valid hv
    exact (hheld hbefore).plain (y := Trace.entry (step V cfg) _ i) hplain hbefore
  · exact ⟨_, _, [], rfl, hmarks, by simp [calls], fun a ha => .inl (hmarks.kept a ha)⟩

/-- The bench with an image key. -/
def signedBench : Config := { bench with imageKey := List.replicate 32 1 }

theorem bench_base : progWord ∣ signedBench.appBase := by decide

end BloblyEmb.Boot
