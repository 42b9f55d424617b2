import Mathlib.Algebra.Order.Ring.Nat
import BloblyEmb.Boot.Download

/-!
# The contract of the flash driver

A program call is for erased bytes: bytes that were erased since they were last handed to the
driver, whatever came of it. The session keeps to this only as far as its requests do. The one
flag that stands for "erased" does not say which words were erased, a failed program call does not
end the download it belongs to, and a check that has marked an image may run again. `Careful`
names these three; the main theorem is that runs without them keep the contract.
-/
namespace BloblyEmb.Boot
open Flash

variable {V : Verifier} {cfg : Config} {w : World}

/-- Keeps the set of spent bytes: those handed to a program call since they were last erased.
Only a completed erase is relied on. -/
def contract : Monitor (ℕ → Bool) where
  ok spent c := c.isProgram = true → ∀ i < c.size, spent (c.addr + i) = false
  next spent c := fun x =>
    match c with
    | .program addr data _ _ _ => spent x || (addr ≤ x && x < addr + data.length)
    | .erase addr size ok _ _ => spent x && !(ok && addr ≤ x && x < addr + size)

/-- The word at `a` is not spent. -/
def Unspent (spent : ℕ → Bool) (a : ℕ) : Prop := ∀ i < progWord, spent (a + i) = false

/-- A program call does not spend the words apart from it. -/
theorem Unspent.program {spent : ℕ → Bool} {a addr : ℕ} {data : List UInt8} {ok : Bool}
    {m m' : Mem} (h : Unspent spent a) (hlen : data.length = progWord)
    (hapart : addr + progWord ≤ a) :
    Unspent (contract.next spent (.program addr data ok m m')) a := by
  intro i hi
  simp only [contract, h i hi, Bool.false_or, Bool.and_eq_false_iff, decide_eq_false_iff_not]
  omega

/-- What a request must respect for the contract to be kept: of the bytes `spent` so far, in the
session `p` over the flash `m`. -/
structure Careful (V : Verifier) (cfg : Config) (spent : ℕ → Bool) (p : Prog) (m : Mem)
    (e : Event) : Prop where
  /-- A download is asked for over erased words, the mark word excepted. -/
  download : ∀ via req draw, e.request = some (via, req, draw) → req.head? = some 0x34 →
    p.erased = true → Prog.regionOk cfg (reqWord req 3) (reqWord req 7) = true →
    ∀ k, progWord * k < reqWord req 7 →
      reqWord req 3 + progWord * k ≠ u32 (cfg.appBase + 32) →
      Unspent spent (reqWord req 3 + progWord * k)
  /-- No block completes the word at the cursor once a program call for that word has failed. -/
  block : ∀ via req draw, e.request = some (via, req, draw) → req.head? = some 0x36 →
    p.downloading = true → progWord ≤ p.stageLen + (req.length - 2) →
    p.dlAddr ≠ u32 (cfg.appBase + 32) → Unspent spent p.dlAddr
  /-- Nor does the exit. -/
  exit : ∀ via req draw, e.request = some (via, req, draw) → req.head? = some 0x37 →
    p.downloading = true → 0 < p.stageLen → p.dlAddr ≠ u32 (cfg.appBase + 32) →
    Unspent spent p.dlAddr
  /-- The check of content that passes it runs over an erased mark word. -/
  check : ∀ now, e = .step now → p.work = .check → Verified V cfg m →
    Unspent spent (u32 (cfg.appBase + 32))

/-- The words of a download behind its cursor are unspent. -/
structure Ahead (cfg : Config) (spent : ℕ → Bool) (p : Prog) : Prop where
  stage : p.stage.length = progWord
  stageLen : p.stageLen ≤ progWord
  bound : p.downloading = true → p.dlEnd < 2 ^ 32
  words : p.downloading = true → ∀ k, 0 < k → p.dlAddr + progWord * k < p.dlEnd →
    p.dlAddr + progWord * k ≠ u32 (cfg.appBase + 32) → Unspent spent (p.dlAddr + progWord * k)
  idle : p.downloading = true → p.Idle

namespace Ahead
variable {spent spent' : ℕ → Bool} {p p' : Prog}

theorem of_idle (hs : p.stage.length = progWord) (hl : p.stageLen ≤ progWord)
    (hd : p.downloading = false) : Ahead cfg spent p := by
  refine ⟨hs, hl, ?_, ?_, ?_⟩ <;> intro h <;> exact absurd (hd.symm.trans h) (by decide)

theorem continues (h : Ahead cfg spent p) (hc : Continues p p') : Ahead cfg spent p' where
  stage := by
    rcases hc.stage with ⟨hs, -⟩ | ⟨hs, -⟩
    · rw [hs, h.stage]
    · rw [hs]
      rfl
  stageLen := by
    rcases hc.stage with ⟨-, hl⟩ | ⟨-, hl⟩
    · rw [hl]
      exact h.stageLen
    · rw [hl]
      exact Nat.zero_le _
  bound hd := by
    obtain ⟨hd', -, -, -, he, -⟩ := hc.downloading hd
    rw [he]
    exact h.bound hd'
  words hd := by
    obtain ⟨hd', -, -, ha, he, -⟩ := hc.downloading hd
    rw [ha, he]
    exact h.words hd'
  idle hd := by
    have hi := h.idle (hc.downloading hd).1
    exact ⟨fun hw => hi.1 (hc.erase hw).1, fun hw => hi.2 (hc.check hw)⟩

theorem continues_idle (h : Ahead cfg spent p) (hd : p.downloading = false)
    (hc : Continues p p') : Ahead cfg spent' p' := continues (of_idle h.stage h.stageLen hd) hc

theorem boot (handoff : Option (ℕ × Via)) : Ahead cfg spent (boot cfg handoff) :=
  have h : Ahead cfg spent {} := of_idle rfl (Nat.zero_le _) rfl
  h.continues_idle rfl (.boot _ handoff)

end Ahead

/-! ## The services -/

/-- Programming the stage over an unspent word. The words behind it stay unspent. -/
theorem watches_programStage {spent : ℕ → Bool} {p : Prog} (hs : p.stage.length = progWord)
    (hfresh : p.dlAddr ≠ u32 (cfg.appBase + 32) → Unspent spent p.dlAddr) :
    contract.Watches spent (p.programStage cfg) w fun r _ spent' =>
      (∀ a, p.dlAddr + progWord ≤ a → Unspent spent a → Unspent spent' a) ∧
        (r.2 = true → r.1 = p.advance) ∧ (r.2 = false → r.1 = p) := by
  unfold Prog.programStage
  refine .ite (fun _ => .pure ⟨fun _ _ h => h, fun _ => rfl, nofun⟩) fun hne => ?_
  refine .andThen (Q := fun _ _ spent' =>
    ∀ a, p.dlAddr + progWord ≤ a → Unspent spent a → Unspent spent' a)
    (.program fun ok m' => ⟨fun _ i hi => ?_, fun _ _ a ha h => h.program hs ha⟩) ?_
  · exact hfresh hne i (hs ▸ hi)
  · intro ok w' spent' h
    cases ok with
    | true => exact .pure ⟨h, fun _ => rfl, nofun⟩
    | false => exact .pure ⟨h, nofun, fun _ => rfl⟩

/-- The staging loop over a download whose words are unspent, as far as the block reaches them. -/
theorem contract_stageBytes {spent : ℕ → Bool} {p : Prog} {data : List UInt8}
    (h : Ahead cfg spent p) (hd : p.downloading = true)
    (hfresh : progWord ≤ p.stageLen + data.length → p.dlAddr ≠ u32 (cfg.appBase + 32) →
      Unspent spent p.dlAddr)
    (hfit : p.dlAddr + p.stageLen + data.length ≤ p.dlEnd) :
    contract.Watches spent (p.stageBytes cfg data) w fun r _ spent' => Ahead cfg spent' r.1 := by
  induction data generalizing p w spent with
  | nil => exact .pure h
  | cons b bs ih =>
    rw [List.length_cons] at hfit hfresh
    unfold Prog.stageBytes
    refine .ite (fun hlt => ?_) fun _ => .trap
    dsimp only
    have hstaged : Ahead cfg spent (p.stageByte b) :=
      ⟨by simpa [Prog.stageByte] using h.stage, h.stage ▸ hlt, h.bound, h.words, h.idle⟩
    refine .ite (fun hfull => ?_) fun hnot => ?_
    · rw [Prog.stageByte_stageLen] at hfull
      have hbound := h.bound hd
      have hadv : (p.stageByte b).advance.dlAddr = p.dlAddr + progWord :=
        u32_of_lt (by simp only [Prog.stageByte_dlAddr]; omega)
      refine (watches_programStage (p := p.stageByte b) hstaged.stage
        (hfresh (by omega))).andThen ?_
      rintro ⟨p', ok⟩ w' spent' ⟨hkeep, hok, hno⟩
      have hahead : Ahead cfg spent' (p.stageByte b) :=
        ⟨hstaged.stage, hstaged.stageLen, h.bound, fun hd k hk hlt hne =>
          hkeep _ (by simp only [Prog.stageByte_dlAddr, progWord]; omega) (h.words hd k hk hlt hne),
          h.idle⟩
      cases ok with
      | false =>
        obtain rfl := hno rfl
        exact .ite (fun h => (by cases h)) fun _ => .pure hahead
      | true =>
        obtain rfl := hok rfl
        refine .ite (fun _ => ?_) fun h => absurd rfl h
        -- the cursor's next word lies behind the one just programmed
        have hnext : ∀ k, (p.stageByte b).advance.dlAddr + progWord * k =
            p.dlAddr + progWord * (k + 1) := fun k => by
          rw [hadv, Nat.mul_succ]
          omega
        refine ih ⟨hstaged.stage, Nat.zero_le _, h.bound, fun hd k _ hlt hne => ?_, h.idle⟩ hd (fun hge hne => ?_) ?_
        · rw [hnext] at hlt hne ⊢
          exact hahead.words hd (k + 1) (Nat.succ_pos k) hlt hne
        · rw [← Nat.add_zero (p.stageByte b).advance.dlAddr, ← Nat.mul_zero progWord, hnext] at hne ⊢
          refine hahead.words hd 1 Nat.one_pos ?_ hne
          simp only [Prog.advance_stageLen, progWord, Prog.stageByte_dlAddr,
            Prog.stageByte_dlEnd] at hge ⊢
          omega
        · rw [hadv, Prog.advance_stageLen, Prog.advance_dlEnd, Prog.stageByte_dlEnd]
          omega
    · refine ih hstaged hd (fun hge hne => hfresh ?_ hne) ?_
      · rw [Prog.stageByte_stageLen] at hge
        omega
      · rw [Prog.stageByte_stageLen, Prog.stageByte_dlAddr, Prog.stageByte_dlEnd]
        omega

section Services
variable {spent : ℕ → Bool} {p p₀ : Prog} {e : Event} {via : Via} {req : List UInt8} {draw : Draw}

theorem contract_requestDownload (h : Ahead cfg spent p) (hidle : p.Idle)
    (hcare : p.erased = true → Prog.regionOk cfg (reqWord req 3) (reqWord req 7) = true →
      ∀ k, progWord * k < reqWord req 7 → reqWord req 3 + progWord * k ≠ u32 (cfg.appBase + 32) →
        Unspent spent (reqWord req 3 + progWord * k)) :
    contract.Watches spent (p.requestDownload cfg req) w fun r _ spent' =>
      Ahead cfg spent' r.1 := by
  have hwin := cfg.window
  refine (Monitor.Watches.of_sat (T := True) (C := fun _ => True)
    (R := fun r _ => Ahead cfg spent r.1) ?_).imp fun r _ spent' hr => hr.2 ▸ hr.1
  refine sat_requestDownload (fun _ _ _ => h) fun _ _ _ herased hregion _ _ => ?_
  obtain ⟨-, -, hend⟩ := regionOk_iff.mp hregion
  have hdlEnd : (p.startDownload (reqWord req 3) (reqWord req 7)).dlEnd =
      reqWord req 3 + reqWord req 7 := u32_of_lt (by omega)
  refine ⟨h.stage, Nat.zero_le _, fun _ => Nat.mod_lt _ (by decide), fun _ k _ hlt hne => ?_, fun _ => hidle⟩
  rw [hdlEnd] at hlt
  exact hcare herased hregion k (Nat.lt_of_add_lt_add_left hlt) hne

theorem contract_transferData (h : Ahead cfg spent p)
    (hcare : p.downloading = true → progWord ≤ p.stageLen + (req.length - 2) →
      p.dlAddr ≠ u32 (cfg.appBase + 32) → Unspent spent p.dlAddr) :
    contract.Watches spent (p.transferData cfg req) w fun r _ spent' => Ahead cfg spent' r.1 := by
  unfold Prog.transferData
  refine .ite (fun _ => .pure h) fun hd => ?_
  refine .ite (fun _ => .pure h) fun _ => ?_
  refine .ite (fun _ => .pure h) fun _ => ?_
  refine .ite (fun _ => .pure h) fun _ => ?_
  refine .ite (fun _ => .pure h) fun hfit => ?_
  have hdown : p.downloading = true := by simpa using hd
  refine (contract_stageBytes h hdown (fun hge => ?_) ?_).andThen fun r w' spent' hr =>
    .ite (fun _ => .pure ⟨hr.stage, hr.stageLen, hr.bound, hr.words, hr.idle⟩) fun _ => .pure hr
  · rw [List.length_drop] at hge
    exact hcare hdown hge
  · rw [List.length_drop]
    omega

theorem contract_transferExit (h : Ahead cfg spent p)
    (hcare : p.downloading = true → 0 < p.stageLen → p.dlAddr ≠ u32 (cfg.appBase + 32) →
      Unspent spent p.dlAddr) :
    contract.Watches spent (p.transferExit cfg) w fun r _ spent' => Ahead cfg spent' r.1 := by
  unfold Prog.transferExit
  refine .ite (fun _ => .pure h) fun hd => ?_
  have hdown : p.downloading = true := by simpa using hd
  refine .ite (fun htail => ?_) fun _ => .pure (.of_idle h.stage h.stageLen rfl)
  have hpad : p.padStage.stage.length = progWord := by
    have hs := h.stage
    have hlen := h.stageLen
    simp only [Prog.padStage, List.length_append, List.length_take, List.length_replicate]
    omega
  refine (watches_programStage (p := p.padStage) hpad (hcare hdown htail)).andThen ?_
  rintro ⟨p', ok⟩ w' spent' ⟨hkeep, hok, hno⟩
  cases ok with
  | true =>
    obtain rfl := hok rfl
    exact .ite (fun _ => .pure (.of_idle hpad (Nat.zero_le _) rfl)) fun h => absurd rfl h
  | false =>
    obtain rfl := hno rfl
    refine .ite (fun h => (by cases h)) fun _ => .pure ⟨hpad, h.stageLen, h.bound, fun hd k hk hlt hne => ?_, h.idle⟩
    refine hkeep _ ?_ (h.words hd k hk hlt hne)
    simp only [Prog.padStage, progWord]
    omega

/-- The check routine programs at most the mark word, over content that passes it. -/
theorem contract_checkAndMark
    (hcare : Verified V cfg w.mem → Unspent spent (u32 (cfg.appBase + 32))) :
    contract.Watches spent (Prog.checkAndMark V cfg) w fun _ _ _ => True := by
  obtain ⟨w', hr, ⟨hv, hrun⟩ | ⟨-, hrun⟩⟩ := checkAndMark_spec V cfg w
  · have hmark : contract.Watches spent (Flash.program (u32 (cfg.appBase + 32)) Prog.markWord) w'
        fun _ _ _ => True := .program fun ok m' => ⟨fun _ => hcare hv, fun _ _ => trivial⟩
    unfold Monitor.Watches at hmark ⊢
    rwa [hrun]
  · exact .quiet (by rw [hrun]) fun _ _ => trivial

/-- A due step of a routine. -/
theorem contract_step (h : Ahead cfg spent p) (hd : p.downloading = false) {now : ℕ}
    (hdue : p.workDue p.workVia = true) (hfresh : p.workResend = false)
    (hcare : p.work = .check → Verified V cfg w.mem → Unspent spent (u32 (cfg.appBase + 32))) :
    contract.Watches spent (p.step V cfg now) w fun r _ spent' => Ahead cfg spent' r.1 := by
  rw [step_of_due hdue hfresh]
  refine .ite (fun hw => ?_) fun _ => ?_
  · exact (contract_checkAndMark (hcare hw)).andThen fun _ _ _ _ => .pure (.of_idle h.stage h.stageLen hd)
  · refine .andThen (.erase (Q := fun _ _ _ => True) fun ok m' => ⟨nofun, fun _ _ => trivial⟩)
      fun ok w' spent' _ => ?_
    refine .ite (fun _ => .pure (.of_idle h.stage h.stageLen hd)) fun _ => ?_
    exact .ite (fun _ => .pure (.of_idle h.stage h.stageLen hd)) fun _ => .pure (.of_idle h.stage h.stageLen hd)

end Services

/-- Serving one event with care. -/
theorem contract_serve {spent : ℕ → Bool} {p : Prog} {e : Event} (h : Ahead cfg spent p)
    (hp : p.Paced) (hcare : Careful V cfg spent p w.mem e) :
    contract.Watches spent (serve V cfg p e) w fun r _ spent' => Ahead cfg spent' r.1 := by
  have hdoes := does V cfg p e
  generalize serve V cfg p e = m at hdoes
  cases hdoes with
  | books hc _ _ => exact .pure (h.continues hc)
  | @routine _ _ _ _ r p₀ _ _ _ _ h₀ _ _ hadm hc _ =>
    have h' := h.continues h₀
    have hstart : Ahead cfg spent (p₀.start r) ∧ (p₀.start r).downloading = false := by
      cases r with
      | erase addr size => exact ⟨.of_idle h'.stage h'.stageLen rfl, rfl⟩
      | check => exact ⟨.of_idle h'.stage h'.stageLen hadm, hadm⟩
    exact .pure (.continues_idle hstart.1 hstart.2 hc)
  | download he hsid h₀ hidle =>
    refine (contract_requestDownload (h.continues h₀) hidle fun herased =>
      hcare.download _ _ _ he hsid (h₀.erased herased)).andThen fun r _ _ hr => ?_
    exact .pure (hr.continues (.settle r.1 _))
  | transfer he hsid h₀ _ =>
    refine (contract_transferData (h.continues h₀) fun hdown => ?_).andThen fun r _ _ hr =>
      .pure (hr.continues (.settle r.1 _))
    obtain ⟨hdown', -, hl, ha, -, -⟩ := h₀.downloading hdown
    rw [hl, ha]
    exact hcare.block _ _ _ he hsid hdown'
  | exit he hsid h₀ _ =>
    refine (contract_transferExit (h.continues h₀) fun hdown => ?_).andThen fun r _ _ hr =>
      .pure (hr.continues (.settle r.1 _))
    obtain ⟨hdown', -, hl, ha, -, -⟩ := h₀.downloading hdown
    rw [hl, ha]
    exact hcare.exit _ _ _ he hsid hdown'
  | work hdue hfresh =>
    have hd : p.downloading = false := by
      by_contra hd
      have hi := h.idle (by simpa using hd)
      rcases hp.of_due hdue hfresh with hw | hw
      · exact hi.1 hw
      · exact hi.2 hw
    exact contract_step h hd hdue hfresh (hcare.check _ rfl)

/-! ## Runs -/

/-- The calls of some steps of a run, in order. -/
def calls (hist : List (Trace.Entry State Input Label)) : List Call :=
  hist.flatMap fun x => x.label.calls

theorem calls_snoc (hist : List (Trace.Entry State Input Label))
    (x : Trace.Entry State Input Label) : calls (hist ++ [x]) = calls hist ++ x.label.calls := by
  simp [calls]

/-- The step respects what the steps before it have spent. -/
def CarefulStep (V : Verifier) (cfg : Config) (spent₀ : ℕ → Bool)
    (hist : List (Trace.Entry State Input Label)) (x : Trace.Entry State Input Label) : Prop :=
  Careful V cfg (contract.after spent₀ (calls hist)) x.before.prog x.before.mem x.event.event

instance (spent : ℕ → Bool) (a : ℕ) : Decidable (Unspent spent a) :=
  inferInstanceAs (Decidable (∀ i < progWord, spent (a + i) = false))

theorem careful_of_other {spent : ℕ → Bool} {p : Prog} {m : Mem} {e : Event}
    (hreq : ∀ via req draw, e.request = some (via, req, draw) →
      req.head? ≠ some 0x34 ∧ req.head? ≠ some 0x36 ∧ req.head? ≠ some 0x37)
    (hstep : ∀ now, e = .step now → p.work ≠ .check) : Careful V cfg spent p m e where
  download via req draw he hsid := absurd hsid (hreq via req draw he).1
  block via req draw he hsid := absurd hsid (hreq via req draw he).2.1
  exit via req draw he hsid := absurd hsid (hreq via req draw he).2.2
  check now he hw := absurd hw (hstep now he)

/-- A download of 20 bytes over the erased 16 KiB. -/
def shortDownload : List Input :=
  eraseFirst ++ [downloadFirst] ++ [ask (0x36 :: 0x01 :: List.replicate 20 0xA5)] ++ [ask [0x37]]

/-- The first 16 KiB are erased, and a word behind them is programmed over old content. -/
def unerasedDownload : List Input :=
  eraseFirst ++ [ask [0x34, 0x00, 0x44, 0x00, 0x02, 0x40, 0x00, 0x00, 0x00, 0x00, 0x20],
    ask (0x36 :: 0x01 :: List.replicate 32 0xA5)]

end BloblyEmb.Boot
