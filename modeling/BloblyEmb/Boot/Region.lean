import Mathlib.Algebra.Order.Ring.Nat
import BloblyEmb.Boot.Rules

/-!
# The application window and the tiling of an erase

Every program and erase call of every run stays inside the application window, whatever the
requests name. The erase calls of a routine that completes tile the region that was asked for,
one call for each erase unit.
-/
namespace BloblyEmb.Boot
open Flash

variable {V : Verifier} {cfg : Config}

/-- The geometry of a flash that the configuration may describe: the window consists of whole
flash words, and the erase units that cover it end inside the address space. -/
structure Geometry (cfg : Config) : Prop where
  base : progWord ∣ cfg.appBase
  size : progWord ∣ cfg.appSize
  units : cfg.eraseUnit ≠ 0 →
    cfg.appBase + (cfg.appSize + cfg.eraseUnit - 1) / cfg.eraseUnit * cfg.eraseUnit < 2 ^ 32

/-- The call works on a part of the application window that is not empty. -/
def InWindow (cfg : Config) (c : Call) : Prop :=
  cfg.appBase ≤ c.addr ∧ 0 < c.size ∧ c.addr + c.size ≤ cfg.appBase + cfg.appSize ∧
    c.addr + c.size < 2 ^ 32

theorem inWindow_of_le {c : Call} (h : cfg.appBase ≤ c.addr) (h0 : 0 < c.size)
    (hend : c.addr + c.size ≤ cfg.appBase + cfg.appSize) : InWindow cfg c :=
  ⟨h, h0, hend, lt_of_le_of_lt hend cfg.window⟩

/-- Two addresses of the window lie in the same erase unit, counted from its base. -/
def SameUnit (cfg : Config) (a b : ℕ) : Prop :=
  (a - cfg.appBase) / cfg.eraseUnit = (b - cfg.appBase) / cfg.eraseUnit

/-- Where the next erase call ends: past its start, inside the region, in the unit it starts in,
and at the end of the region when there are no units. -/
theorem nextUnit_spec (hg : Geometry cfg) {p : Prog} (hbase : cfg.appBase ≤ p.workAddr)
    (hlt : p.workAddr < p.workEnd) (hend : p.workEnd ≤ cfg.appBase + cfg.appSize) :
    p.workAddr < p.nextUnit cfg ∧ p.nextUnit cfg ≤ p.workEnd ∧
      (cfg.eraseUnit ≠ 0 → SameUnit cfg p.workAddr (p.nextUnit cfg - 1)) ∧
      (cfg.eraseUnit = 0 → p.nextUnit cfg = p.workEnd) := by
  have hwin := cfg.window
  unfold Prog.nextUnit
  by_cases hu : cfg.eraseUnit = 0
  · rw [if_neg (not_not.mpr hu)]
    exact ⟨hlt, le_rfl, fun h => absurd hu h, fun _ => rfl⟩
  rw [if_pos hu]
  dsimp only
  have hsub : sub32 p.workAddr cfg.appBase = p.workAddr - cfg.appBase := by
    unfold sub32 u32
    omega
  rw [hsub]
  -- the offset into the window, and the unit it lies in
  obtain ⟨x, hx⟩ : ∃ x, x = p.workAddr - cfg.appBase := ⟨_, rfl⟩
  rw [← hx]
  have hpos : 0 < cfg.eraseUnit := Nat.pos_of_ne_zero hu
  have hmod := Nat.div_add_mod x cfg.eraseUnit
  have hmodlt := Nat.mod_lt x hpos
  have hnext : (x / cfg.eraseUnit + 1) * cfg.eraseUnit =
      cfg.eraseUnit * (x / cfg.eraseUnit) + cfg.eraseUnit := by
    rw [Nat.add_mul, Nat.mul_comm, Nat.one_mul]
  -- the boundary behind it does not wrap
  have hcover : (x / cfg.eraseUnit + 1) * cfg.eraseUnit ≤
      (cfg.appSize + cfg.eraseUnit - 1) / cfg.eraseUnit * cfg.eraseUnit := by
    refine Nat.mul_le_mul_right _ ?_
    rw [← Nat.add_div_right x hpos]
    exact Nat.div_le_div_right (by omega)
  have hunits := hg.units hu
  rw [u32_of_lt (by omega)]
  split
  · rename_i hb
    refine ⟨by omega, by omega, fun _ => ?_, fun h => absurd h hu⟩
    unfold SameUnit
    rw [← hx, hnext]
    refine (Nat.div_eq_of_lt_le ?_ ?_).symm
    · rw [Nat.mul_comm]
      omega
    · rw [hnext]
      omega
  · rename_i hb
    refine ⟨hlt, le_rfl, fun _ => ?_, fun h => absurd h hu⟩
    unfold SameUnit
    rw [← hx]
    refine (Nat.div_eq_of_lt_le ?_ ?_).symm
    · rw [Nat.mul_comm]
      omega
    · rw [hnext]
      omega

/-! ## Every call stays inside the window -/

/-- What is under way stays inside the window. -/
structure InRegion (cfg : Config) (p : Prog) : Prop where
  stage : p.stage.length = progWord
  stageLen : p.stageLen ≤ progWord
  download : p.downloading = true → progWord ∣ p.dlAddr ∧ cfg.appBase ≤ p.dlAddr ∧
    p.dlAddr + p.stageLen ≤ p.dlEnd ∧ p.dlEnd ≤ cfg.appBase + cfg.appSize
  erase : p.work = .erase → cfg.appBase ≤ p.workAddr ∧ p.workAddr < p.workEnd ∧
    p.workEnd ≤ cfg.appBase + cfg.appSize

theorem InRegion.continues {p p' : Prog} (h : InRegion cfg p) (hc : Continues p p') :
    InRegion cfg p' where
  stage := by
    rcases hc.stage with ⟨hs, -⟩ | ⟨hs, -⟩
    · rw [hs, h.stage]
    · rw [hs]
      rfl
  stageLen := by
    rcases hc.stage with ⟨-, hl⟩ | ⟨-, hl⟩
    · rw [hl]
      exact h.stageLen
    · omega
  download hd := by
    obtain ⟨hd', -, hl, ha, he, -⟩ := hc.downloading hd
    rw [hl, ha, he]
    exact h.download hd'
  erase hw := by
    obtain ⟨hw', ha, he⟩ := hc.erase hw
    rw [ha, he]
    exact h.erase hw'

theorem inRegion_boot (handoff : Option (ℕ × Via)) : InRegion cfg (boot cfg handoff) :=
  InRegion.continues (p := {}) ⟨rfl, Nat.zero_le _, nofun, nofun⟩ (.boot _ handoff)

/-- A word that starts before the end of the download ends inside the window. -/
theorem word_in_window (hg : Geometry cfg) {a e : ℕ} (ha : progWord ∣ a) (hlt : a < e)
    (he : e ≤ cfg.appBase + cfg.appSize) : a + progWord ≤ cfg.appBase + cfg.appSize := by
  obtain ⟨i, rfl⟩ := ha
  obtain ⟨j, hj⟩ := hg.base
  obtain ⟨k, hk⟩ := hg.size
  simp only [progWord] at *
  omega

variable {w : World} {C : World → Prop}

/-- Programming the stage, whole or padded, of a download inside the window. -/
theorem sat_programStage_inWindow {p : Prog} (hs : p.stage.length = progWord)
    (hbase : cfg.appBase ≤ p.dlAddr)
    (hend : p.dlAddr + progWord ≤ cfg.appBase + cfg.appSize) :
    Sat True (fun _ => True) (InWindow cfg) (p.programStage cfg) w
      (fun r _ => (r.2 = true → r.1 = p.advance) ∧ (r.2 = false → r.1 = p)) (fun _ => True) := by
  refine sat_programStage (fun _ => ⟨fun _ => rfl, nofun⟩) fun _ => sat_program ?_
  intro ok landed w' _ _ _ _ _
  refine ⟨inWindow_of_le hbase ?_ ?_, ⟨fun h => if_pos h, fun h => if_neg (by simpa using h)⟩,
    fun _ => trivial⟩
  · simp [Call.size, hs, progWord]
  · simpa [Call.size, Call.addr, hs] using hend

/-- The cursor moves on by a word inside the window. -/
theorem advance_dlAddr {p : Prog} (hend : p.dlAddr + progWord ≤ cfg.appBase + cfg.appSize) :
    p.advance.dlAddr = p.dlAddr + progWord := by
  have hwin := cfg.window
  exact u32_of_lt (by omega)

/-- The staging loop over the rest of a block that fits the download. -/
theorem sat_stageBytes_inWindow (hg : Geometry cfg) {p : Prog} {data : List UInt8}
    (h : InRegion cfg p) (hd : p.downloading = true)
    (hfit : p.dlAddr + p.stageLen + data.length ≤ p.dlEnd) :
    Sat True (fun _ => True) (InWindow cfg) (p.stageBytes cfg data) w
      (fun r _ => InRegion cfg r.1) (fun _ => True) := by
  induction data generalizing p w with
  | nil => exact Sat.pure h
  | cons b bs ih =>
    obtain ⟨hdvd, hbase, -, hend⟩ := h.download hd
    rw [List.length_cons] at hfit
    unfold Prog.stageBytes
    refine Sat.ite (fun hlt => ?_) fun _ => Sat.trap trivial trivial
    rw [h.stage] at hlt
    dsimp only
    have hstaged : InRegion cfg (p.stageByte b) :=
      ⟨by simpa [Prog.stageByte] using h.stage, hlt,
        fun _ => ⟨hdvd, hbase, by rw [Prog.stageByte_stageLen]; simp; omega, hend⟩, h.erase⟩
    refine Sat.ite (fun hfull => ?_) fun _ => ih hstaged hd (by simp; omega)
    rw [Prog.stageByte_stageLen] at hfull
    have hword := word_in_window hg hdvd (by omega) hend
    have haddr : (p.stageByte b).advance.dlAddr = p.dlAddr + progWord :=
      advance_dlAddr (p := p.stageByte b) hword
    refine Sat.andThen (sat_programStage_inWindow hstaged.stage hbase hword) ?_
    rintro ⟨p', ok⟩ w' ⟨hok, hno⟩
    refine Sat.ite (fun h' => ?_) fun h' => Sat.pure ?_
    · obtain rfl := hok h'
      refine ih ⟨hstaged.stage, Nat.zero_le _, fun _ => ⟨?_, ?_, ?_, hend⟩, h.erase⟩ hd ?_
      · rw [haddr]
        exact Nat.dvd_add hdvd (Nat.dvd_refl _)
      · change cfg.appBase ≤ (p.stageByte b).advance.dlAddr
        omega
      · rw [haddr, Prog.advance_stageLen, Prog.advance_dlEnd, Prog.stageByte_dlEnd]
        omega
      · rw [haddr, Prog.advance_stageLen, Prog.advance_dlEnd, Prog.stageByte_dlEnd]
        omega
    · obtain rfl := hno (by simpa using h')
      exact hstaged

/-- Every operation keeps what is under way inside the window, and its calls too. -/
theorem keeps_inRegion (hg : Geometry cfg) :
    Keeps V cfg (fun _ => True) (InWindow cfg) fun p _ => InRegion cfg p := by
  have hwin := cfg.window
  have hboot : ∀ handoff, InRegion cfg (boot cfg handoff) := inRegion_boot
  refine ⟨fun h hc => h.continues hc, ?_, ?_, ?_, ?_, ?_, ?_⟩
  · -- a routine is accepted over a part of the window
    intro p m r h _ _ hadm
    cases r with
    | erase addr size =>
      obtain ⟨h0, hbase, hend⟩ := regionOk_iff.mp hadm
      refine ⟨h.stage, h.stageLen, nofun, fun _ => ⟨hbase, ?_, ?_⟩⟩
      · change addr < u32 (addr + size)
        rw [u32_of_lt (by omega)]
        omega
      · change u32 (addr + size) ≤ _
        rw [u32_of_lt (by omega)]
        exact hend
    | check => exact ⟨h.stage, h.stageLen, h.download, nofun⟩
  · -- a download too
    intro p m addr size h _ _ _ hregion halign _
    obtain ⟨h0, hbase, hend⟩ := regionOk_iff.mp hregion
    have he : (p.startDownload addr size).dlEnd = addr + size := u32_of_lt (by omega)
    refine ⟨h.stage, Nat.zero_le _, fun _ => ⟨?_, hbase, ?_, ?_⟩, h.erase⟩
    · exact Nat.dvd_of_mod_eq_zero halign
    · rw [he]
      exact Nat.le_add_right addr size
    · rw [he]
      exact hend
  · -- a block that fits is staged inside the window
    intro p req w h _
    unfold Prog.transferData
    refine Sat.ite (fun _ => Sat.pure h) fun hd => ?_
    refine Sat.ite (fun _ => Sat.pure h) fun _ => ?_
    refine Sat.ite (fun _ => Sat.pure h) fun _ => ?_
    refine Sat.ite (fun _ => Sat.pure h) fun _ => ?_
    refine Sat.ite (fun _ => Sat.pure h) fun hfit => ?_
    have hfit' : p.dlAddr + p.stageLen + (req.drop 2).length ≤ p.dlEnd := by
      rw [List.length_drop]
      omega
    have hrun := sat_stageBytes_inWindow (w := w) hg h (by simpa using hd) hfit'
    refine Sat.andThen (hrun.imp (fun _ _ => id) fun _ _ => hboot none) fun r w' hr => ?_
    exact Sat.ite (fun _ => Sat.pure ⟨hr.stage, hr.stageLen, hr.download, hr.erase⟩)
      fun _ => Sat.pure hr
  · -- the tail is padded to a word that starts before the end of the download
    intro p w h _
    unfold Prog.transferExit
    refine Sat.ite (fun _ => Sat.pure h) fun hd => ?_
    refine Sat.ite (fun htail => ?_) fun _ => Sat.pure ⟨h.stage, h.stageLen, nofun, h.erase⟩
    obtain ⟨hdvd, hbase, hle, hend⟩ := h.download (by simpa using hd)
    have hpad : InRegion cfg p.padStage := by
      refine ⟨?_, h.stageLen, h.download, h.erase⟩
      have := h.stage
      have := h.stageLen
      simp only [Prog.padStage, List.length_append, List.length_take, List.length_replicate]
      omega
    have hword := word_in_window hg hdvd (by omega) hend
    have hrun := sat_programStage_inWindow (w := w) (p := p.padStage) hpad.stage hbase hword
    refine Sat.andThen (hrun.imp (fun _ _ => id) fun _ _ => hboot none) ?_
    rintro ⟨p', ok⟩ w' ⟨hok, hno⟩
    refine Sat.ite (fun h' => Sat.pure ?_) fun h' => Sat.pure ?_
    · obtain rfl := hok h'
      exact ⟨hpad.stage, Nat.zero_le _, nofun, hpad.erase⟩
    · obtain rfl := hno (by simpa using h')
      exact hpad
  · -- the mark word belongs to the header that fits
    intro p w h hw hv
    have hfits := hv.fits
    refine sat_program fun ok landed w' _ _ _ _ _ => ⟨?_, ?_, fun _ => hboot none⟩
    swap
    · exact ⟨h.stage, h.stageLen, h.download, nofun⟩
    rw [u32_of_lt (by omega)]
    refine inWindow_of_le ?_ ?_ ?_ <;> simp only [Call.addr, Call.size, length_markWord] <;> omega
  · -- an erase call ends at the next unit boundary or at the end of the region
    intro p w h hw
    obtain ⟨hbase, hlt, hend⟩ := h.erase hw
    obtain ⟨hn, hn', -, -⟩ := nextUnit_spec hg hbase hlt hend
    have hsub : sub32 (p.nextUnit cfg) p.workAddr = p.nextUnit cfg - p.workAddr := by
      unfold sub32 u32
      omega
    rw [hsub]
    refine sat_erase fun ok _ w' _ _ _ _ => ⟨?_, ?_, fun _ => hboot none⟩
    · refine inWindow_of_le ?_ ?_ ?_ <;> simp only [Call.addr, Call.size] <;> omega
    · cases ok with
      | false => exact ⟨h.stage, h.stageLen, h.download, nofun⟩
      | true =>
        rw [if_neg (by decide)]
        split
        · rename_i hlt'
          refine ⟨h.stage, h.stageLen, h.download, fun _ => ⟨?_, hlt', hend⟩⟩
          change cfg.appBase ≤ p.nextUnit cfg
          omega
        · exact ⟨h.stage, h.stageLen, h.download, nofun⟩

/-! ## The erase calls of a routine tile its region -/

/-- `cs` are erase calls over `[a, b)`: ascending and contiguous, none empty, none across the
boundary of an erase unit. -/
def Tiles (cfg : Config) : ℕ → ℕ → List Call → Prop
  | a, b, [] => a = b
  | a, b, c :: cs => c.isErase = true ∧ c.addr = a ∧ 0 < c.size ∧
      (cfg.eraseUnit ≠ 0 → SameUnit cfg a (a + c.size - 1)) ∧ Tiles cfg (a + c.size) b cs

theorem Tiles.append {a b d : ℕ} {cs cs' : List Call} (h : Tiles cfg a b cs)
    (hc : Tiles cfg b d cs') : Tiles cfg a d (cs ++ cs') := by
  induction cs generalizing a with
  | nil =>
    obtain rfl : a = b := h
    exact hc
  | cons c' cs ih =>
    obtain ⟨h1, h2, h3, h4, h5⟩ := h
    exact ⟨h1, h2, h3, h4, ih h5⟩

/-- The erase calls among the calls of some steps of a run. -/
def eraseCalls (es : List (Trace.Entry State Input Label)) : List Call :=
  (es.flatMap fun x => x.label.calls).filter Call.isErase

/-- The step serves a request that starts the routine `r`. -/
def Starts (x : Trace.Entry State Input Label) (r : Routine) : Prop :=
  (∃ via req draw, x.event.event.request = some (via, req, draw) ∧ req.head? = some 0x31 ∧
    routineOf req = some r) ∧ x.label.out = .done pending

/-- The step does the last unit of an erase and answers that the routine is done. -/
def CompletesErase (x : Trace.Entry State Input Label) : Prop :=
  (∃ now, x.event.event = .step now) ∧ x.label.calls ≠ [] ∧
    x.label.out = .done (routineRsp routineErase 0x00)

/-- The routine an event's request starts is the only one it can be seen to start. -/
theorem not_starts_of_step {x : Trace.Entry State Input Label} {now : ℕ}
    (h : x.event.event = .step now) (r : Routine) : ¬ Starts x r := by
  rintro ⟨⟨via, req, draw, he, -⟩, -⟩
  rw [h] at he
  exact nomatch he

theorem not_completes_of_request {x : Trace.Entry State Input Label}
    (h : x.event.event.request.isSome = true) : ¬ CompletesErase x := by
  rintro ⟨⟨now, hn⟩, -⟩
  rw [hn] at h
  exact nomatch h

/-- A step that makes no erase call and completes no erase: the erase under way afterwards was
under way before, or was started by it. -/
def Quiet (cfg : Config) (x : Trace.Entry State Input Label) : Prop :=
  x.label.calls.filter Call.isErase = [] ∧ ¬ CompletesErase x ∧
    (x.after.prog.work = .erase →
      (x.before.prog.work = .erase ∧ x.after.prog.workAddr = x.before.prog.workAddr ∧
        x.after.prog.workEnd = x.before.prog.workEnd ∧ ∀ r, ¬ Starts x r) ∨
      ∃ addr size, Starts x (.erase addr size) ∧ Prog.regionOk cfg addr size = true ∧
        x.after.prog.workAddr = addr ∧ x.after.prog.workEnd = u32 (addr + size))

/-- A step that erases the next unit. -/
def ErasesUnit (cfg : Config) (x : Trace.Entry State Input Label) : Prop :=
  x.before.prog.work = .erase ∧ (∀ r, ¬ Starts x r) ∧
    ∃ c : Call, c.isErase = true ∧ c.addr = x.before.prog.workAddr ∧
      c.size = sub32 (x.before.prog.nextUnit cfg) x.before.prog.workAddr ∧ x.label.calls = [c] ∧
      (x.after.prog.work = .erase → x.before.prog.nextUnit cfg < x.before.prog.workEnd ∧
        x.after.prog.workAddr = x.before.prog.nextUnit cfg ∧
        x.after.prog.workEnd = x.before.prog.workEnd) ∧
      (CompletesErase x → ¬ x.before.prog.nextUnit cfg < x.before.prog.workEnd)

/-- A download service is quiet. -/
theorem quiet_of_service {s : State} {i : Input} {p₀ : Prog} {via : Via}
    {m : FlashM (Prog × List UInt8)} (hreq : i.event.request.isSome = true)
    (hm : serve V cfg s.prog i.event = m >>= fun r => Pure.pure (r.1.settle via, r.2))
    (h₀ : Continues s.prog p₀)
    (hserves : ∀ w, Sat True (fun _ => True) (fun c => c.isProgram = true) m w
      (fun r _ => Serves p₀ r) (fun _ => True)) :
    Quiet cfg (Trace.entry (step V cfg) s i) := by
  have hsat : Sat True (fun _ => True) (fun c => c.isProgram = true)
      (serve V cfg s.prog i.event) ⟨s.mem, i.faults⟩
      (fun r _ => r.2 ≠ pending ∧ (r.1.work = .erase →
        s.prog.work = .erase ∧ r.1.workAddr = s.prog.workAddr ∧ r.1.workEnd = s.prog.workEnd))
      (fun _ => True) := by
    rw [hm]
    refine Sat.andThen (hserves _) fun r w' hr => Sat.pure ⟨hr.2, fun hw => ?_⟩
    obtain ⟨hw₁, ha₁, he₁⟩ := (Continues.settle r.1 via).erase hw
    obtain ⟨hw₂, ha₂, he₂⟩ := hr.1.routine
    obtain ⟨hw₃, ha₃, he₃⟩ := h₀.erase (hw₂.symm.trans hw₁)
    exact ⟨hw₃, ha₁.trans (ha₂.trans ha₃), he₁.trans (he₂.trans he₃)⟩
  obtain ⟨hcalls, hout⟩ := step_of_sat hsat fun _ _ => trivial
  refine ⟨?_, not_completes_of_request hreq, fun hw => ?_⟩
  · refine List.filter_eq_nil_iff.mpr fun c hc => ?_
    simp [Call.isErase, hcalls c hc]
  · have hw' : (step V cfg s i).1.prog.work = .erase := hw
    rcases hout with ⟨resp, w, ho, -, hne, hkeep⟩ | ⟨w, -, hs, -⟩ | ⟨w, -, hs, -⟩
    · obtain ⟨hw₀, ha, he⟩ := hkeep hw'
      refine .inl ⟨hw₀, ha, he, ?_⟩
      rintro r ⟨-, hp⟩
      exact hne (by simpa [ho] using (show (step V cfg s i).2.out = .done pending from hp))
    · rw [hs] at hw'
      exact nomatch hw'
    · rw [hs] at hw'
      exact nomatch hw'

/-- A due step of an erase erases the next unit. -/
theorem erasesUnit_of_work {s : State} {i : Input} {now : ℕ} (hi : i.event = .step now)
    (hdue : s.prog.workDue s.prog.workVia = true) (hfresh : s.prog.workResend = false)
    (hw : s.prog.work = .erase) : ErasesUnit cfg (Trace.entry (step V cfg) s i) := by
  have hserve : serve V cfg s.prog i.event = s.prog.step V cfg now := by
    rw [hi]
    rfl
  have hsat : Sat True (fun _ => True) (fun _ => True)
      (s.prog.step V cfg now) ⟨s.mem, i.faults⟩
      (fun r _ => (r.1.work = .erase → s.prog.nextUnit cfg < s.prog.workEnd ∧
          r.1.workAddr = s.prog.nextUnit cfg ∧ r.1.workEnd = s.prog.workEnd) ∧
        (r.2 = routineRsp routineErase 0x00 → ¬ s.prog.nextUnit cfg < s.prog.workEnd))
      (fun _ => True) := by
    refine sat_step hdue hfresh (fun hc => by simp [hw] at hc) fun _ => ?_
    refine sat_erase fun ok _ _ _ _ _ _ => ⟨trivial, ?_, fun _ => trivial⟩
    cases ok with
    | false =>
      exact fun p' hc _ => ⟨fun h => (by cases (hc.erase h).1), by
        simp [Uds.negative, routineRsp]⟩
    | true =>
      rw [if_neg (by decide)]
      split
      · rename_i hlt
        exact fun p' hc _ _ => ⟨fun h => ⟨hlt, (hc.erase h).2⟩, by
          simp [pending, Uds.negative, routineRsp]⟩
      · rename_i hge
        exact fun p' hc _ => ⟨fun h => (by cases (hc.erase h).1), fun _ => hge⟩
  obtain ⟨ok, m', hcalls⟩ : ∃ ok m', (s.prog.step V cfg now ⟨s.mem, i.faults⟩).calls =
      [.erase s.prog.workAddr (sub32 (s.prog.nextUnit cfg) s.prog.workAddr) ok s.mem m'] :=
    calls_step_erase hdue hfresh hw _
  rw [← hserve, ← calls_step] at hcalls
  rw [← hserve] at hsat
  obtain ⟨-, hout⟩ := step_of_sat hsat fun _ _ => trivial
  refine ⟨hw, not_starts_of_step hi,
    .erase s.prog.workAddr (sub32 (s.prog.nextUnit cfg) s.prog.workAddr) ok s.mem m',
    rfl, rfl, ?_, ?_, fun hw' => ?_, ?_⟩
  · rw [Call.size_erase, Trace.entry_before]
  · exact hcalls
  · have hw'' : (step V cfg s i).1.prog.work = .erase := hw'
    rcases hout with ⟨resp, w, -, -, hQ, -⟩ | ⟨w, -, hs, -⟩ | ⟨w, -, hs, -⟩
    · exact hQ hw''
    · rw [hs] at hw''
      cases hw''
    · rw [hs] at hw''
      cases hw''
  · rintro ⟨-, -, ho⟩
    have ho' : (step V cfg s i).2.out = .done (routineRsp routineErase 0x00) := ho
    rcases hout with ⟨resp, w, h, -, -, hQ⟩ | ⟨w, h, -⟩ | ⟨w, h, -⟩
    · exact hQ (Outcome.done.inj (h.symm.trans ho'))
    · cases h.symm.trans ho'
    · cases h.symm.trans ho'

/-- A due step of a check programs at most, and its answer is not that of an erase. -/
theorem quiet_of_check {s : State} {i : Input} {now : ℕ} (hi : i.event = .step now)
    (hdue : s.prog.workDue s.prog.workVia = true) (hfresh : s.prog.workResend = false)
    (hw : s.prog.work = .check) : Quiet cfg (Trace.entry (step V cfg) s i) := by
  have hserve : serve V cfg s.prog i.event = s.prog.step V cfg now := by
    rw [hi]
    rfl
  have hsat : Sat True (fun _ => True) (fun c => c.isProgram = true)
      (s.prog.step V cfg now) ⟨s.mem, i.faults⟩
      (fun r _ => r.1.work ≠ .erase ∧ r.2 ≠ routineRsp routineErase 0x00)
      (fun _ => True) := by
    refine sat_step hdue hfresh (fun _ => ?_) fun hne => absurd hw hne
    have hanswer : ∀ p' : Prog, Continues { s.prog with work := .answer } p' →
        p'.work ≠ .erase := fun p' hc h => (by cases (hc.erase h).1)
    have hrsp : ∀ ok : Bool, routineRsp routineCheck (if ok then 0x00 else 0x01) ≠
        routineRsp routineErase 0x00 := by decide
    refine sat_checkAndMark (fun _ _ p' hc _ => ⟨hanswer p' hc, hrsp false⟩) fun _ _ _ => ?_
    refine sat_program fun ok _ _ _ _ _ _ _ => ⟨rfl, ?_, fun _ => trivial⟩
    exact fun p' hc _ => ⟨hanswer p' hc, hrsp ok⟩
  rw [← hserve] at hsat
  obtain ⟨hcalls, hout⟩ := step_of_sat hsat fun _ _ => trivial
  refine ⟨List.filter_eq_nil_iff.mpr fun c hc => ?_, ?_, fun hw' => ?_⟩
  · simp [Call.isErase, hcalls c hc]
  · rintro ⟨-, -, ho⟩
    have ho' : (step V cfg s i).2.out = .done (routineRsp routineErase 0x00) := ho
    rcases hout with ⟨resp, w, h, -, -, hne⟩ | ⟨w, h, -⟩ | ⟨w, h, -⟩
    · exact hne (Outcome.done.inj (h.symm.trans ho'))
    · cases h.symm.trans ho'
    · cases h.symm.trans ho'
  · have hw'' : (step V cfg s i).1.prog.work = .erase := hw'
    rcases hout with ⟨resp, w, -, -, hne, -⟩ | ⟨w, -, hs, -⟩ | ⟨w, -, hs, -⟩
    · exact absurd hw'' hne
    · rw [hs] at hw''
      cases hw''
    · rw [hs] at hw''
      cases hw''


/-- Every step is quiet or erases the next unit of the routine under way. -/
theorem quiet_or_erasesUnit (s : State) (i : Input) (hp : s.prog.Paced) :
    Quiet cfg (Trace.entry (step V cfg) s i) ∨ ErasesUnit cfg (Trace.entry (step V cfg) s i) := by
  have hd := does V cfg s.prog i.event
  generalize hm : serve V cfg s.prog i.event = m at hd
  generalize hi : i.event = e at hd
  cases hd with
  | @books _ p' resp hc hresp _ =>
    left
    have hs := step_of_pure hm
    simp only [Quiet, Trace.entry, hs, CompletesErase, Starts]
    refine ⟨rfl, fun h => h.2.1 rfl, fun hw => ?_⟩
    obtain ⟨hw₀, ha, he⟩ := hc.erase hw
    refine .inl ⟨hw₀, ha, he, ?_⟩
    rintro r ⟨⟨via, req, draw, hreq, -⟩, hpend⟩
    exact hresp (by rw [← hi, hreq]; rfl) (Outcome.done.inj hpend)
  | @routine _ via req draw r p₀ p' he hsid hr h₀ _ hgate hadm hc hpaced =>
    left
    have hs := step_of_pure hm
    simp only [Quiet, Trace.entry, hs, CompletesErase, Starts]
    refine ⟨rfl, fun h => h.2.1 rfl, fun hw => .inr ?_⟩
    obtain ⟨hw₀, ha, hend⟩ := hc.erase hw
    cases r with
    | check => exact nomatch hw₀
    | erase addr size =>
      exact ⟨addr, size, ⟨⟨via, req, draw, hi ▸ he, hsid, hr⟩, trivial⟩, hadm, ha, hend⟩
  | download he hsid h₀ _ =>
    exact .inl (quiet_of_service (by rw [hi, he]; rfl) hm h₀ fun w => serves_requestDownload)
  | transfer he hsid h₀ _ =>
    exact .inl (quiet_of_service (by rw [hi, he]; rfl) hm h₀ fun w => serves_transferData fun _ h => h)
  | exit he hsid h₀ _ =>
    exact .inl (quiet_of_service (by rw [hi, he]; rfl) hm h₀ fun w => serves_transferExit fun _ h => h)
  | work hdue hfresh =>
    rcases hp.of_due hdue hfresh with hw | hw
    · exact .inr (erasesUnit_of_work hi hdue hfresh hw)
    · exact .inl (quiet_of_check hi hdue hfresh hw)

/-- The erase under way has tiled its region up to the cursor. -/
def TiledSoFar (cfg : Config) (p : Prog) (hist : List (Trace.Entry State Input Label)) : Prop :=
  ∀ h₁ e₁ h₂ addr size, hist = h₁ ++ e₁ :: h₂ → Starts e₁ (.erase addr size) →
    (∀ x ∈ h₂, ∀ r, ¬ Starts x r) → p.work = .erase →
    Tiles cfg addr p.workAddr (eraseCalls h₂) ∧ p.workEnd = addr + size ∧
      (cfg.eraseUnit = 0 → eraseCalls h₂ = [])

theorem Starts.unique {x : Trace.Entry State Input Label} {r r' : Routine} (h : Starts x r)
    (h' : Starts x r') : r = r' := by
  obtain ⟨⟨via, req, draw, he, -, hr⟩, -⟩ := h
  obtain ⟨⟨via', req', draw', he', -, hr'⟩, -⟩ := h'
  rw [he] at he'
  obtain ⟨-, rfl, -⟩ := Prod.mk.inj (Option.some.inj he')
  exact Option.some.inj (hr.symm.trans hr')

theorem eraseCalls_snoc (h : List (Trace.Entry State Input Label))
    (x : Trace.Entry State Input Label) :
    eraseCalls (h ++ [x]) = eraseCalls h ++ x.label.calls.filter Call.isErase := by
  simp [eraseCalls]

/-- The unit that a step erases tiles the region on from the cursor. -/
theorem ErasesUnit.tiles (hg : Geometry cfg) {x : Trace.Entry State Input Label}
    (h : ErasesUnit cfg x) (hr : InRegion cfg x.before.prog) :
    Tiles cfg x.before.prog.workAddr (x.before.prog.nextUnit cfg)
        (x.label.calls.filter Call.isErase) ∧
      x.before.prog.nextUnit cfg ≤ x.before.prog.workEnd ∧
      (cfg.eraseUnit = 0 → x.before.prog.nextUnit cfg = x.before.prog.workEnd) ∧
      (x.label.calls.filter Call.isErase).length = 1 := by
  obtain ⟨hw, -, c, hc, haddr, hsize, hcalls, -⟩ := h
  obtain ⟨hbase, hlt, hend⟩ := hr.erase hw
  obtain ⟨hn, hn', hunit, hone⟩ := nextUnit_spec hg hbase hlt hend
  have hwin := cfg.window
  have hsub : sub32 (x.before.prog.nextUnit cfg) x.before.prog.workAddr =
      x.before.prog.nextUnit cfg - x.before.prog.workAddr := by
    unfold sub32 u32
    omega
  have hto : x.before.prog.workAddr + c.size = x.before.prog.nextUnit cfg := by omega
  have hfilter : x.label.calls.filter Call.isErase = [c] := by simp [hcalls, hc]
  rw [hfilter]
  refine ⟨⟨hc, haddr, by omega, fun hu => ?_, hto⟩, hn', hone, rfl⟩
  rw [hto]
  exact hunit hu

/-- Every step keeps the tiling. -/
theorem tiledSoFar_snoc (hg : Geometry cfg) {s : State} {i : Input} (hp : s.prog.Paced)
    (hr : InRegion cfg s.prog) {hist : List (Trace.Entry State Input Label)}
    (h : TiledSoFar cfg s.prog hist) :
    TiledSoFar cfg (step V cfg s i).1.prog (hist ++ [Trace.entry (step V cfg) s i]) := by
  have hwin := cfg.window
  intro h₁ e₁ h₂ addr size hsplit hstart hno hw
  have hwork : (Trace.entry (step V cfg) s i).after.prog.work = .erase := hw
  rcases List.eq_nil_or_concat h₂ with rfl | ⟨h₂', y, rfl⟩
  · -- the step that starts the erase
    obtain ⟨-, hx⟩ := List.append_inj' hsplit rfl
    obtain rfl := (List.cons.inj hx).1
    rcases quiet_or_erasesUnit s i hp with ⟨-, -, hq⟩ | ⟨-, hnot, -⟩
    · rcases hq hwork with ⟨-, -, -, hnot⟩ | ⟨a, n, hs, hreg, ha, he⟩
      · exact absurd hstart (hnot _)
      · obtain ⟨rfl, rfl⟩ := Routine.erase.inj (hstart.unique hs)
        obtain ⟨-, -, hend⟩ := regionOk_iff.mp hreg
        exact ⟨ha.symm, he.trans (u32_of_lt (by omega)), fun _ => rfl⟩
    · exact absurd hstart (hnot _)
  · -- a later step
    rw [List.concat_eq_append] at hsplit hno ⊢
    rw [← List.cons_append, ← List.append_assoc] at hsplit
    obtain ⟨hhist, hy⟩ := List.append_inj' hsplit rfl
    obtain rfl := (List.cons.inj hy).1
    have hno' : ∀ x ∈ h₂', ∀ r, ¬ Starts x r := fun x hx => hno x (List.mem_append_left _ hx)
    have hlast := hno _ (List.mem_append_right _ (List.mem_singleton_self _))
    rw [eraseCalls_snoc]
    rcases quiet_or_erasesUnit s i hp with ⟨hcalls, -, hq⟩ | hunit
    · rcases hq hwork with ⟨hw₀, ha, he, -⟩ | ⟨a, n, hs, -⟩
      · obtain ⟨ht, hend, hone⟩ := h h₁ e₁ h₂' addr size hhist hstart hno' hw₀
        rw [hcalls, List.append_nil]
        exact ⟨(show (step V cfg s i).1.prog.workAddr = _ from ha) ▸ ht, he.trans hend, hone⟩
      · exact absurd hs (hlast _)
    · obtain ⟨ht', -, hu, -⟩ := hunit.tiles hg hr
      obtain ⟨hw₀, -, c, -, -, -, -, hafter, -⟩ := hunit
      obtain ⟨hlt, ha, he⟩ := hafter hwork
      obtain ⟨ht, hend, -⟩ := h h₁ e₁ h₂' addr size hhist hstart hno' hw₀
      refine ⟨?_, he.trans hend, fun h0 => ?_⟩
      · rw [show (step V cfg s i).1.prog.workAddr = _ from ha]
        exact ht.append ht'
      · exact absurd (hu h0) (by omega)

/-- The tiling holds along every run. -/
theorem tiledSoFar_run (hg : Geometry cfg) (handoff : Option (ℕ × Via)) (mem : Mem)
    (is : List Input) :
    TiledSoFar cfg (Trace.final (step V cfg) (start cfg handoff mem) is).prog
      (Trace.history (step V cfg) (start cfg handoff mem) is) := by
  refine (Trace.run_induction (fun (s : State) hist =>
    (InRegion cfg s.prog ∧ s.prog.Paced) ∧ TiledSoFar cfg s.prog hist) ?_ ?_ is).2
  · refine ⟨⟨inRegion_boot handoff, paced_boot handoff⟩, ?_⟩
    intro h₁ e₁ h₂ _ _ hnil
    simp at hnil
  · rintro es i ⟨⟨hr, hp⟩, ht⟩
    exact ⟨((keeps_inRegion hg).step hr hp fun _ _ => trivial).1, tiledSoFar_snoc hg hp hr ht⟩

theorem bench_geometry : Geometry bench := ⟨by decide, by decide, fun _ => by decide⟩

end BloblyEmb.Boot
