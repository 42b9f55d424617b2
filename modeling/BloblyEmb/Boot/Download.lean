import Mathlib.Algebra.Order.Ring.Nat
import BloblyEmb.Boot.Region

/-!
# Download integrity

What the flash holds of a download while it is under way, and after its exit. `Holds` splits the
data received so far into whole words, which are stored, and a tail, which is staged. A program
call that fails inside a block breaks it: the full stage is left behind, the next block indexes
past its end, and the blocks that did arrive no longer line up with the cursor. The main theorem
is that this is the only way.
-/
namespace BloblyEmb.Boot
open Flash

variable {V : Verifier} {cfg : Config} {w : World} {C : World → Prop}

/-- The word of the valid mark, which the wire never reaches. -/
def MarkWord (cfg : Config) (x : ℕ) : Prop :=
  u32 (cfg.appBase + 32) ≤ x ∧ x < u32 (cfg.appBase + 32) + progWord

/-- The flash holds `bs` from address `a` on, the mark word excepted. -/
def Stored (cfg : Config) (m : Mem) (a : ℕ) (bs : List UInt8) : Prop :=
  ∀ i (h : i < bs.length), ¬ MarkWord cfg (a + i) → m.byte (a + i) = bs[i]

theorem Stored.nil (m : Mem) (a : ℕ) : Stored cfg m a [] := fun i h => absurd h (by simp)

theorem Stored.append {m : Mem} {a : ℕ} {xs ys : List UInt8} (hx : Stored cfg m a xs)
    (hy : Stored cfg m (a + xs.length) ys) : Stored cfg m a (xs ++ ys) := by
  intro i hi hmark
  rw [List.getElem_append]
  split
  · exact hx i _ hmark
  · rename_i hge
    rw [List.length_append] at hi
    have heq : a + i = a + xs.length + (i - xs.length) := by omega
    rw [heq] at hmark ⊢
    exact hy (i - xs.length) (by omega) hmark

theorem Stored.congr {m m' : Mem} {a : ℕ} {bs : List UInt8} (h : Stored cfg m a bs)
    (heq : ∀ x, x < a + bs.length → m' x = m x) : Stored cfg m' a bs := by
  intro i hi hmark
  rw [Mem.byte, heq (a + i) (by omega)]
  exact h i hi hmark

/-- The data `D` received for the download at `a`: whole words are stored, the tail is staged. -/
structure Holds (cfg : Config) (a : ℕ) (D : List UInt8) (p : Prog) (m : Mem) : Prop where
  split : ∃ words, D = words ++ p.stage.take p.stageLen ∧ p.dlAddr = a + words.length ∧
    progWord ∣ words.length ∧ Stored cfg m a words
  stage : p.stage.length = progWord
  tail : p.stageLen < progWord

/-- Programming the stage, when the driver does not fail: the word is stored, or it is the mark
word. -/
theorem sat_programStage_stored {A : Call → Prop} (hok : ∀ c, A c → c.ok = true) {p : Prog} :
    Sat False A (fun _ => True) (p.programStage cfg) w
      (fun r w' => r = (p.advance, true) ∧
        (p.stage.length = progWord → Stored cfg w'.mem p.dlAddr p.stage) ∧
        ∀ x, x < p.dlAddr → w'.mem x = w.mem x) C := by
  refine sat_programStage (fun hskip => ⟨rfl, ?_, fun _ _ => rfl⟩) fun _ => sat_program ?_
  · intro hlen i hi hmark
    exact absurd ⟨by omega, by omega⟩ hmark
  · intro ok landed w' _ hland hm _ hA
    obtain rfl : ok = true := hok _ hA
    obtain rfl := hland rfl
    refine ⟨trivial, ⟨rfl, fun _ i hi _ => ?_, fun x hx => ?_⟩, nofun⟩
    · rw [hm]
      exact Mem.byte_write_inside _ _ i _ hi
    · rw [hm]
      exact Mem.write_of_lt _ _ x _ hx

/-- The word that a full stage completes. -/
theorem take_stageByte {p : Prog} (b : UInt8) (hlt : p.stageLen < p.stage.length) :
    (p.stageByte b).stage.take (p.stageLen + 1) = p.stage.take p.stageLen ++ [b] := by
  simp only [Prog.stageByte]
  rw [List.take_add_one, List.take_set_of_le (Nat.le_refl _)]
  simp [hlt]

/-- The staging loop takes the rest of a block. -/
theorem sat_stageBytes_holds {A : Call → Prop} (hok : ∀ c, A c → c.ok = true) {p : Prog} {a : ℕ}
    {D data : List UInt8} (h : Holds cfg a D p w.mem) (hend : p.dlEnd < 2 ^ 32)
    (hfit : p.dlAddr + p.stageLen + data.length ≤ p.dlEnd) :
    Sat False A (fun _ => True) (p.stageBytes cfg data) w
      (fun r w' => r.2 = true ∧ Holds cfg a (D ++ data) r.1 w'.mem ∧
        r.1.dlEnd = p.dlEnd ∧ r.1.work = p.work) C := by
  induction data generalizing p w D with
  | nil => exact Sat.pure ⟨rfl, by simpa using h, rfl, rfl⟩
  | cons b bs ih =>
    obtain ⟨⟨words, hD, haddr, hdvd, hstored⟩, hlen, htail⟩ := h
    rw [List.length_cons] at hfit
    unfold Prog.stageBytes
    refine Sat.ite (fun hlt => ?_) fun hno => absurd (hlen ▸ htail) hno
    dsimp only
    have hlen' : (p.stageByte b).stage.length = progWord := by simpa [Prog.stageByte] using hlen
    have htake := take_stageByte b hlt
    have hD' : D ++ b :: bs = (D ++ [b]) ++ bs := by simp
    rw [hD']
    refine Sat.ite (fun hfull => ?_) fun hnot => ?_
    · -- the word is complete: it is stored behind the words before it
      rw [Prog.stageByte_stageLen] at hfull
      refine Sat.andThen (sat_programStage_stored hok) ?_
      rintro r w' ⟨rfl, hword, hbelow⟩
      refine Sat.ite (fun _ => ?_) fun h => absurd rfl h
      have hadv : (p.stageByte b).advance.dlAddr = p.dlAddr + progWord :=
        u32_of_lt (by simp only [Prog.stageByte_dlAddr]; omega)
      refine ih ⟨⟨words ++ (p.stageByte b).stage, ?_, ?_, ?_, ?_⟩, hlen', ?_⟩ hend ?_
      · rw [hD, Prog.advance_stageLen, List.take_zero, List.append_nil, List.append_assoc, ← htake,
          hfull, ← hlen', List.take_length]
      · rw [hadv, List.length_append, hlen', haddr, Nat.add_assoc]
      · rw [List.length_append, hlen']
        exact Nat.dvd_add hdvd (Nat.dvd_refl _)
      · refine Stored.append (hstored.congr fun x hx => hbelow x ?_) ?_
        · rw [Prog.stageByte_dlAddr]
          omega
        · rw [← haddr]
          exact hword hlen'
      · rw [Prog.advance_stageLen]
        exact Nat.zero_lt_succ _
      · rw [hadv, Prog.advance_stageLen, Prog.advance_dlEnd, Prog.stageByte_dlEnd]
        omega
    · rw [Prog.stageByte_stageLen] at hnot
      refine ih ⟨⟨words, ?_, haddr, hdvd, hstored⟩, hlen', ?_⟩ hend ?_
      · rw [Prog.stageByte_stageLen, htake, hD, List.append_assoc]
      · rw [Prog.stageByte_stageLen]
        omega
      · rw [Prog.stageByte_stageLen, Prog.stageByte_dlAddr, Prog.stageByte_dlEnd]
        omega

/-! ## The data received -/

/-- The request that an event brings, if `out` answers it positively. -/
def positive (e : Event) (out : Outcome (List UInt8)) : Option (List UInt8) :=
  match e.request, out with
  | some (_, sid :: req, _), .done (r :: _) => if r = sid + 0x40 then some (sid :: req) else none
  | _, _ => none

/-- What an answer adds to a download: the address it was accepted at, and its data so far. -/
def receive (d : ℕ × List UInt8) (e : Event) (out : Outcome (List UInt8)) : ℕ × List UInt8 :=
  match positive e out with
  | some req =>
    if req.head? = some 0x34 then (reqWord req 3, [])
    else if req.head? = some 0x36 then (d.1, d.2 ++ req.drop 2)
    else d
  | none => d

/-- The download that the answers of a history amount to. -/
def received (hist : List (Trace.Entry State Input Label)) : ℕ × List UInt8 :=
  hist.foldl (fun d x => receive d x.event.event x.label.out) (0, [])

/-- The data with its last word padded. -/
def padded (D : List UInt8) : List UInt8 :=
  D ++ List.replicate ((progWord - D.length % progWord) % progWord) 0xFF

theorem received_snoc (hist : List (Trace.Entry State Input Label))
    (x : Trace.Entry State Input Label) :
    received (hist ++ [x]) = receive (received hist) x.event.event x.label.out := by
  simp [received, List.foldl_append]

theorem positive_eq_some {e : Event} {out : Outcome (List UInt8)} {req : List UInt8}
    (h : positive e out = some req) :
    ∃ via draw sid resp, e.request = some (via, req, draw) ∧ req.head? = some sid ∧
      out = .done resp ∧ resp.head? = some (sid + 0x40) := by
  unfold positive at h
  split at h
  · rename_i via sid rest draw r resp he
    split at h
    · rename_i hr
      obtain rfl := Option.some.inj h
      exact ⟨via, draw, sid, r :: resp, he, rfl, rfl, by rw [hr]; rfl⟩
    · exact nomatch h
  · exact nomatch h

/-- An answer that is no positive answer of a download service adds nothing. -/
theorem NoService.positive_head {e : Event} {resp req : List UInt8} {sid : UInt8}
    (h : NoService e resp) (hp : positive e (.done resp) = some req)
    (hmem : sid ∈ ([0x34, 0x36, 0x37] : List UInt8)) : req.head? ≠ some sid := by
  obtain ⟨via, draw, sid', resp', he, hsid, hout, hresp⟩ := positive_eq_some hp
  obtain rfl := Outcome.done.inj hout
  intro hs
  obtain rfl := Option.some.inj (hsid.symm.trans hs)
  exact h via req draw sid' he hsid hmem hresp

theorem NoService.receive {e : Event} {resp : List UInt8} (h : NoService e resp)
    (d : ℕ × List UInt8) : receive d e (.done resp) = d := by
  unfold Boot.receive
  split
  · rename_i req hp
    rw [if_neg (h.positive_head hp (by decide)), if_neg (h.positive_head hp (by decide))]
  · rfl

/-- The positive answer of a service to its request. -/
theorem positive_of_head {e : Event} {via : Via} {req : List UInt8} {draw : Draw} {sid r : UInt8}
    {resp : List UInt8} (he : e.request = some (via, req, draw)) (hsid : req.head? = some sid)
    (hr : r = sid + 0x40) : positive e (.done (r :: resp)) = some req := by
  obtain ⟨rest, rfl⟩ : ∃ rest, req = sid :: rest := by
    cases req with
    | nil => exact nomatch hsid
    | cons b rest => exact ⟨rest, by rw [Option.some.inj hsid]⟩
  simp only [positive, he, hr, if_true]

/-! ## The services keep what the flash holds -/

/-- The session `p` agrees with the download `d`: the stage is never full, and what was received
is stored or staged. No routine works while a download is under way. -/
structure Downloads (cfg : Config) (d : ℕ × List UInt8) (p : Prog) (m : Mem) : Prop where
  stage : p.stage.length = progWord
  tail : p.stageLen < progWord
  holds : p.downloading = true → Holds cfg d.1 d.2 p m
  bound : p.downloading = true → p.dlEnd < 2 ^ 32
  idle : p.downloading = true → p.Idle

namespace Downloads
variable {d d' : ℕ × List UInt8} {p p' : Prog} {m m' : Mem}

/-- Without a download under way nothing is asked of the flash. -/
theorem of_idle (hs : p.stage.length = progWord) (ht : p.stageLen < progWord)
    (hd : p.downloading = false) : Downloads cfg d p m := by
  refine ⟨hs, ht, ?_, ?_, ?_⟩ <;> intro h <;> exact absurd (hd.symm.trans h) (by decide)

theorem continues (h : Downloads cfg d p m) (hc : Continues p p') : Downloads cfg d p' m where
  stage := by
    rcases hc.stage with ⟨hs, -⟩ | ⟨hs, -⟩
    · rw [hs, h.stage]
    · rw [hs]
      rfl
  tail := by
    rcases hc.stage with ⟨-, hl⟩ | ⟨-, hl⟩
    · rw [hl]
      exact h.tail
    · rw [hl]
      exact Nat.zero_lt_succ _
  holds hd := by
    obtain ⟨hd', hs, hl, ha, -, -⟩ := hc.downloading hd
    obtain ⟨hsplit, hlen, htail⟩ := h.holds hd'
    exact ⟨by rw [hs, hl, ha]; exact hsplit, by rw [hs]; exact hlen, by rw [hl]; exact htail⟩
  bound hd := by
    obtain ⟨hd', -, -, -, he, -⟩ := hc.downloading hd
    rw [he]
    exact h.bound hd'
  idle hd := by
    have hi := h.idle (hc.downloading hd).1
    exact ⟨fun hw => hi.1 (hc.erase hw).1, fun hw => hi.2 (hc.check hw)⟩

/-- As `continues`, with no download before, over any flash. -/
theorem continues_idle (h : Downloads cfg d p m) (hd : p.downloading = false)
    (hc : Continues p p') : Downloads cfg d' p' m' :=
  continues (of_idle h.stage h.tail hd) hc

theorem boot (handoff : Option (ℕ × Via)) : Downloads cfg d (boot cfg handoff) m :=
  continues_idle (p := {}) (d := d) (m := m) ⟨rfl, Nat.zero_lt_succ _, nofun, nofun, nofun⟩ rfl
    (.boot _ handoff)

end Downloads

/-- The tail that is flushed by the exit: the padded data is stored. -/
theorem Holds.exit {a : ℕ} {D : List UInt8} {p : Prog} {m m' : Mem} (h : Holds cfg a D p m)
    (hbelow : ∀ x, x < p.dlAddr → m' x = m x)
    (hstored : 0 < p.stageLen → Stored cfg m' p.dlAddr p.padStage.stage) :
    Stored cfg m' a (padded D) := by
  obtain ⟨⟨words, hD, haddr, hdvd, hwords⟩, hlen, htail⟩ := h
  have hwords' : Stored cfg m' a words := hwords.congr fun x hx => hbelow x (by omega)
  have hDlen : D.length % progWord = p.stageLen := by
    obtain ⟨k, hk⟩ := hdvd
    rw [hD, List.length_append, List.length_take, hlen, Nat.min_eq_left (by omega), hk,
      Nat.mul_add_mod, Nat.mod_eq_of_lt htail]
  unfold padded
  rw [hDlen]
  rcases Nat.eq_zero_or_pos p.stageLen with h0 | hpos
  · rw [hD, h0]
    simpa using hwords'
  · rw [Nat.mod_eq_of_lt (by omega), hD, List.append_assoc]
    exact hwords'.append (haddr ▸ hstored hpos)

/-- What serving the event `e` with the result `r` makes of the download `d`. -/
def Agrees (cfg : Config) (d : ℕ × List UInt8) (e : Event) (r : Prog × List UInt8) (m : Mem) :
    Prop :=
  Downloads cfg (receive d e (.done r.2)) r.1 m ∧
    ∀ req, positive e (.done r.2) = some req → req.head? = some 0x37 →
      Stored cfg m d.1 (padded d.2)

theorem agrees_of_noService {d : ℕ × List UInt8} {e : Event} {p : Prog} {resp : List UInt8}
    {m : Mem} (h : NoService e resp) (hd : Downloads cfg d p m) : Agrees cfg d e (p, resp) m := by
  refine ⟨?_, fun req hp hsid => absurd hsid (h.positive_head hp (by decide))⟩
  rw [h.receive]
  exact hd

section Services
variable {d : ℕ × List UInt8} {e : Event} {via : Via} {req : List UInt8} {draw : Draw} {p : Prog}
  {A : Call → Prop}

theorem agrees_requestDownload (h : Downloads cfg d p w.mem) (hidle : p.Idle)
    (he : e.request = some (via, req, draw)) (hsid : req.head? = some 0x34) :
    Sat False A (fun _ => True) (p.requestDownload cfg req) w
      (fun r w' => Agrees cfg d e r w'.mem) C := by
  have hwin := cfg.window
  refine sat_requestDownload (fun w' nrc hr => ?_) fun w' hr _ _ hregion _ _ => ?_
  · rw [hr.mem]
    exact agrees_of_noService (noService_negative e 0x34 nrc) h
  · rw [hr.mem]
    obtain ⟨-, -, hend⟩ := regionOk_iff.mp hregion
    have hp : positive e (.done [0x74, 0x20, 0x02, 0x02]) = some req :=
      positive_of_head he hsid (by decide)
    refine ⟨?_, fun req' hp' hsid' => ?_⟩
    · have hrec : receive d e (.done [0x74, 0x20, 0x02, 0x02]) = (reqWord req 3, []) := by
        simp only [receive, hp, hsid, if_true]
      rw [hrec]
      refine ⟨h.stage, Nat.zero_lt_succ _, fun _ => ?_, fun _ => ?_, fun _ => hidle⟩
      · exact ⟨⟨[], by simp [Prog.startDownload], (Nat.add_zero _).symm, Nat.dvd_zero _, .nil _ _⟩,
          h.stage, Nat.zero_lt_succ _⟩
      · exact Nat.mod_lt _ (by decide)
    · obtain rfl := Option.some.inj (hp.symm.trans hp')
      rw [hsid] at hsid'
      exact absurd (Option.some.inj hsid') (by decide)

theorem agrees_transferData (hok : ∀ c, A c → c.ok = true) (h : Downloads cfg d p w.mem)
    (he : e.request = some (via, req, draw)) (hsid : req.head? = some 0x36) :
    Sat False A (fun _ => True) (p.transferData cfg req) w
      (fun r w' => Agrees cfg d e r w'.mem) C := by
  have hrefuse : ∀ nrc, Agrees cfg d e (p, Uds.negative 0x36 nrc) w.mem := fun nrc =>
    agrees_of_noService (noService_negative e 0x36 nrc) h
  unfold Prog.transferData
  refine Sat.ite (fun _ => Sat.pure (hrefuse _)) fun hd => ?_
  refine Sat.ite (fun _ => Sat.pure (hrefuse _)) fun _ => ?_
  refine Sat.ite (fun _ => Sat.pure (hrefuse _)) fun _ => ?_
  refine Sat.ite (fun _ => Sat.pure (hrefuse _)) fun _ => ?_
  refine Sat.ite (fun _ => Sat.pure (hrefuse _)) fun hfit => ?_
  have hdown : p.downloading = true := by simpa using hd
  have hfit' : p.dlAddr + p.stageLen + (req.drop 2).length ≤ p.dlEnd := by
    rw [List.length_drop]
    omega
  refine Sat.andThen (sat_stageBytes_holds hok (h.holds hdown) (h.bound hdown) hfit') ?_
  rintro ⟨p', ok⟩ w' ⟨rfl, hholds, hend, hwork⟩
  refine Sat.ite (fun _ => Sat.pure ?_) fun h => absurd rfl h
  have hp : positive e (.done [0x76, req.getD 1 0]) = some req :=
    positive_of_head he hsid (by decide)
  refine ⟨?_, fun req' hp' hsid' => ?_⟩
  · have hrec : receive d e (.done [0x76, req.getD 1 0]) = (d.1, d.2 ++ req.drop 2) := by
      simp only [receive, hp, hsid]
      rfl
    rw [hrec]
    obtain ⟨hsplit, hlen, htail⟩ := hholds
    refine ⟨hlen, htail, fun _ => ⟨hsplit, hlen, htail⟩, fun _ => ?_, fun _ => ?_⟩
    · exact hend ▸ h.bound hdown
    · have := h.idle hdown
      unfold Prog.Idle at this ⊢
      rwa [← hwork] at this
  · obtain rfl := Option.some.inj (hp.symm.trans hp')
    rw [hsid] at hsid'
    exact absurd (Option.some.inj hsid') (by decide)

theorem agrees_transferExit (h : Downloads cfg d p w.mem)
    (he : e.request = some (via, req, draw)) (hsid : req.head? = some 0x37) :
    Sat False A (fun _ => True) (p.transferExit cfg) w
      (fun r w' => Agrees cfg d e r w'.mem) (fun _ => True) := by
  have hp : positive e (.done [0x77]) = some req := positive_of_head he hsid (by decide)
  have hrec : receive d e (.done [0x77]) = d := by
    simp only [receive, hp, hsid]
    rfl
  unfold Prog.transferExit
  refine Sat.ite (fun _ => Sat.pure ?_) fun hd => ?_
  · exact agrees_of_noService (noService_negative e 0x37 _) h
  have hdown : p.downloading = true := by simpa using hd
  have hholds := h.holds hdown
  have hpad : p.padStage.stage.length = progWord := by
    have hs := h.stage
    have ht := h.tail
    simp only [Prog.padStage, List.length_append, List.length_take, List.length_replicate]
    omega
  -- the padded word is stored, or stays staged; the words before it are as they were
  have hdone : ∀ m', (∀ x, x < p.dlAddr → m' x = w.mem x) →
      Stored cfg m' p.dlAddr p.padStage.stage →
      Agrees cfg d e ({ p.padStage.advance with downloading := false }, [0x77]) m' := by
    intro m' hbelow hstored
    refine ⟨hrec ▸ .of_idle hpad (Nat.zero_lt_succ _) rfl, fun _ _ _ => ?_⟩
    exact hholds.exit hbelow fun _ => hstored
  have hfail : ∀ m', (∀ x, x < p.dlAddr → m' x = w.mem x) →
      Agrees cfg d e (p.padStage, Uds.negative 0x37 nrcGeneralProgrammingFailure) m' := by
    intro m' hbelow
    refine agrees_of_noService (noService_negative e 0x37 _) ?_
    obtain ⟨⟨words, hD, haddr, hdvd, hstored⟩, hlen, htail⟩ := hholds
    refine ⟨hpad, htail, fun _ => ⟨⟨words, ?_, haddr, hdvd, ?_⟩, hpad, htail⟩,
      fun _ => h.bound hdown, fun _ => h.idle hdown⟩
    · have htake : p.padStage.stage.take p.stageLen = p.stage.take p.stageLen := by
        have hmin : p.stageLen = (p.stage.take p.stageLen).length := by
          rw [List.length_take]
          omega
        simp only [Prog.padStage]
        exact List.take_left' hmin.symm
      exact hD.trans (congrArg (words ++ ·) htake.symm)
    · exact hstored.congr fun x hx => hbelow x (by omega)
  refine Sat.ite (fun htail => ?_) fun hnone => Sat.pure ?_
  · refine Sat.andThen (Q := fun r w' => Agrees cfg d e (if r.2 then
      ({ r.1 with downloading := false }, [0x77])
      else (r.1, Uds.negative 0x37 nrcGeneralProgrammingFailure)) w'.mem) ?_ ?_
    · refine sat_programStage (fun hskip => ?_) fun _ => sat_program ?_
      · exact hdone w.mem (fun _ _ => rfl) fun i hi hmark => absurd (hskip ▸ ⟨by omega, by omega⟩) hmark
      · intro ok landed w' _ hland hm _ _
        have hbelow : ∀ x, x < p.dlAddr → w'.mem x = w.mem x := fun x hx => by
          rw [hm]
          exact Mem.write_of_lt _ _ x _ hx
        refine ⟨trivial, ?_, fun _ => trivial⟩
        cases ok with
        | false => exact hfail w'.mem hbelow
        | true =>
          refine hdone w'.mem hbelow fun i hi _ => ?_
          obtain rfl := hland rfl
          rw [hm]
          exact Mem.byte_write_inside _ _ i _ hi
    · rintro ⟨p', ok⟩ w' hr
      cases ok with
      | false => exact Sat.ite (fun h => (by cases h)) fun _ => Sat.pure hr
      | true => exact Sat.ite (fun _ => Sat.pure hr) fun h => absurd rfl h
  · have h0 : p.stageLen = 0 := by omega
    refine ⟨hrec ▸ .of_idle h.stage h.tail rfl, fun _ _ _ => ?_⟩
    exact hholds.exit (fun _ _ => rfl) fun hpos => absurd hpos (by omega)

/-- The bookkeeping behind a service. -/
theorem Agrees.settle {r : Prog × List UInt8} {m : Mem} (h : Agrees cfg d e r m) (via : Via) :
    Agrees cfg d e (r.1.settle via, r.2) m := ⟨h.1.continues (.settle r.1 via), h.2⟩

end Services

/-- The event brings a block of a download. -/
def Event.IsBlock (e : Event) : Prop :=
  ∃ via req draw, e.request = some (via, req, draw) ∧ req.head? = some 0x36

/-- Serving one event, when no program call of a block fails. -/
theorem sat_serve_agrees {d : ℕ × List UInt8} {p : Prog} {e : Event} (h : Downloads cfg d p w.mem)
    (hp : p.Paced) :
    Sat False (fun c => e.IsBlock → c.ok = true) (fun _ => True) (serve V cfg p e) w
      (fun r w' => Agrees cfg d e r w'.mem) (fun _ => True) := by
  have hdoes := does V cfg p e
  generalize serve V cfg p e = m at hdoes
  cases hdoes with
  | books hc _ hserv => exact Sat.pure (agrees_of_noService hserv (h.continues hc))
  | @routine _ _ _ _ r p₀ p' he hsid hr h₀ hidle hgate hadm hc _ =>
    refine Sat.pure (agrees_of_noService (noService_negative e 0x31 _) ?_)
    have h' := h.continues h₀
    have hstart : (p₀.start r).stage.length = progWord ∧ (p₀.start r).stageLen < progWord ∧
        (p₀.start r).downloading = false := by
      cases r with
      | erase addr size => exact ⟨h'.stage, h'.tail, rfl⟩
      | check => exact ⟨h'.stage, h'.tail, hadm⟩
    exact .continues_idle (d := d) (m := w.mem) (.of_idle hstart.1 hstart.2.1 hstart.2.2)
      hstart.2.2 hc
  | download he hsid h₀ hidle =>
    exact Sat.andThen (agrees_requestDownload (h.continues h₀) hidle he hsid)
      fun r w' hr => Sat.pure (hr.settle _)
  | @transfer _ via req draw _ he hsid h₀ _ =>
    refine Sat.andThen (agrees_transferData (fun c hc => ?_) (h.continues h₀) he hsid)
      fun r w' hr => Sat.pure (hr.settle _)
    exact hc ⟨via, req, draw, he, hsid⟩
  | exit he hsid h₀ _ =>
    exact Sat.andThen (agrees_transferExit (h.continues h₀) he hsid)
      fun r w' hr => Sat.pure (hr.settle _)
  | @work now hdue hfresh =>
    -- a routine works only while no download is under way
    have hd : p.downloading = false := by
      by_contra hd
      have hi := h.idle (by simpa using hd)
      rcases hp.of_due hdue hfresh with hw | hw
      · exact hi.1 hw
      · exact hi.2 hw
    refine (sat_step_apart hdue hfresh).imp_post ?_
    rintro ⟨p', resp⟩ w' ⟨q, hc, hs, hl, hq⟩
    refine agrees_of_noService (noService_of_none rfl) ?_
    exact .continues_idle (d := d) (m := w.mem) (.of_idle (hs ▸ h.stage) (hl ▸ h.tail) (hq.trans hd))
      (hq.trans hd) hc

/-! ## Failed program calls -/

/-- Watches for a failed call. -/
def failures : Monitor Bool where
  ok _ _ := True
  next failed c := failed || !c.ok

theorem failures_after {c : Call} {cs : List Call} (h : c ∈ cs) (hc : c.ok = false) (b : Bool) :
    failures.after b cs = true := by
  have hkeep : ∀ (cs : List Call), failures.after true cs = true := fun cs => by
    induction cs with
    | nil => rfl
    | cons c cs ih => exact ih
  induction cs generalizing b with
  | nil => simp at h
  | cons c' cs ih =>
    rcases List.mem_cons.mp h with rfl | h
    · have hnext : failures.next b c = true := by simp [failures, hc]
      rw [Monitor.after, List.foldl_cons, hnext]
      exact hkeep cs
    · exact ih h _

/-- A call that fails inside a block leaves the stage full. -/
theorem watches_stageBytes {p : Prog} {data : List UInt8} :
    failures.Watches false (p.stageBytes cfg data) w fun r _ failed =>
      failed = true → r.2 = false ∧ r.1.stageLen = progWord := by
  induction data generalizing p w with
  | nil => exact .pure fun h => (by cases h)
  | cons b bs ih =>
    unfold Prog.stageBytes
    refine .ite (fun _ => ?_) fun _ => .trap
    dsimp only
    refine .ite (fun hfull => ?_) fun _ => ih
    have hword : failures.Watches false ((p.stageByte b).programStage cfg) w fun r _ failed =>
        failed = !r.2 ∧ (r.2 = false → r.1 = p.stageByte b) := by
      unfold Prog.programStage
      refine .ite (fun _ => .pure ⟨rfl, fun h => (by cases h)⟩) fun _ => ?_
      refine .andThen (Q := fun ok _ failed => failed = !ok)
        (.program fun ok _ => ⟨trivial, fun _ _ => by simp [failures, Call.ok]⟩) fun ok w' failed h => ?_
      subst h
      cases ok with
      | false => exact .pure ⟨rfl, fun _ => rfl⟩
      | true => exact .pure ⟨rfl, fun h => (by cases h)⟩
    refine hword.andThen ?_
    rintro ⟨p', ok⟩ w' failed ⟨rfl, hsame⟩
    cases ok with
    | true => exact .ite (fun _ => ih) fun h => absurd rfl h
    | false => exact .ite (fun h => (by cases h)) fun _ => .pure fun _ => ⟨rfl, hsame rfl ▸ hfull⟩

theorem watches_transferData {p : Prog} {req : List UInt8} :
    failures.Watches false (p.transferData cfg req) w fun r _ failed =>
      failed = true → r.1.stageLen = progWord := by
  unfold Prog.transferData
  refine .ite (fun _ => .pure nofun) fun _ => ?_
  refine .ite (fun _ => .pure nofun) fun _ => ?_
  refine .ite (fun _ => .pure nofun) fun _ => ?_
  refine .ite (fun _ => .pure nofun) fun _ => ?_
  refine .ite (fun _ => .pure nofun) fun _ => ?_
  refine watches_stageBytes.andThen ?_
  rintro ⟨p', ok⟩ w' failed hfull
  refine .ite (fun h => .pure fun hf => ?_) fun _ => .pure fun hf => (hfull hf).2
  exact absurd ((hfull hf).1.symm.trans h) (by decide)

/-! ## Runs -/

/-- No program call of a block that the step serves fails, but by a power cut. -/
def NoFailedBlock (x : Trace.Entry State Input Label) : Prop :=
  x.event.event.IsBlock → x.label.out ≠ .cut → ∀ c ∈ x.label.calls, c.ok = true

/-- The step keeps the download intact: the stage is not indexed out of range and is not full
afterwards, and where an exit is answered positively the flash holds the data received. -/
def Intact (cfg : Config) (hist : List (Trace.Entry State Input Label))
    (x : Trace.Entry State Input Label) : Prop :=
  x.label.out ≠ .trap ∧ x.after.prog.stageLen < progWord ∧
    ∀ req, positive x.event.event x.label.out = some req → req.head? = some 0x37 →
      Stored cfg x.after.mem (received hist).1 (padded (received hist).2)

/-- One step whose block does not fail. -/
theorem intact_of_noFailedBlock {s : State} {i : Input} {hist : List (Trace.Entry State Input Label)}
    (h : Downloads cfg (received hist) s.prog s.mem) (hp : s.prog.Paced)
    (hc : NoFailedBlock (Trace.entry (step V cfg) s i)) :
    Downloads cfg (received (hist ++ [Trace.entry (step V cfg) s i])) (step V cfg s i).1.prog
        (step V cfg s i).1.mem ∧ Intact cfg hist (Trace.entry (step V cfg) s i) := by
  rw [received_snoc]
  simp only [Intact, Trace.entry_event, Trace.entry_label, Trace.entry_after]
  by_cases hcut : (step V cfg s i).2.out = .cut
  · have hboot : (step V cfg s i).1.prog = boot cfg none :=
      step_lost fun resp h => nomatch hcut.symm.trans h
    rw [hcut, hboot]
    refine ⟨.boot none, nofun, (Downloads.boot (m := s.mem) (d := (0, [])) none).tail, ?_⟩
    intro req hreq
    obtain ⟨_, _, _, _, _, _, hout, _⟩ := positive_eq_some hreq
    exact nomatch hout
  · obtain ⟨-, hout⟩ := step_of_sat (sat_serve_agrees (V := V) (w := ⟨s.mem, i.faults⟩) h hp)
      fun c hmem hblock => hc hblock hcut c hmem
    rcases hout with ⟨resp, w, ho, hm, hd, hstored⟩ | ⟨w, ho, hs, hC⟩ | ⟨w, ho, hs, hF, hC⟩
    · rw [ho, hm]
      exact ⟨hd, nofun, hd.tail, hstored⟩
    · exact absurd ho hcut
    · exact hF.elim

/-- A block that fails leaves the stage full. -/
theorem noFailedBlock_of_intact {s : State} {i : Input} {hist : List (Trace.Entry State Input Label)}
    (h : Intact cfg hist (Trace.entry (step V cfg) s i)) :
    NoFailedBlock (Trace.entry (step V cfg) s i) := by
  rintro ⟨via, req, draw, he, hsid⟩ hcut c hmem
  by_contra hfail
  obtain ⟨htrap, htail, -⟩ := h
  simp only [Trace.entry_event, Trace.entry_label, Trace.entry_after] at he hcut hmem htrap htail
  have hdoes := does V cfg s.prog i.event
  generalize hm : serve V cfg s.prog i.event = m at hdoes
  generalize hi : i.event = e at hdoes he
  have hother : ∀ via' req' draw' sid, e.request = some (via', req', draw') →
      req'.head? = some sid → sid = 0x36 := by
    intro via' req' draw' sid he' hsid'
    rw [he] at he'
    obtain ⟨-, rfl, -⟩ := Prod.mk.inj (Option.some.inj he')
    exact Option.some.inj (hsid'.symm.trans hsid)
  cases hdoes with
  | books _ _ _ =>
    rw [step_of_pure hm] at hmem
    simp at hmem
  | routine he' hsid' => exact absurd (hother _ _ _ _ he' hsid') (by decide)
  | download he' hsid' => exact absurd (hother _ _ _ _ he' hsid') (by decide)
  | exit he' hsid' => exact absurd (hother _ _ _ _ he' hsid') (by decide)
  | work => exact nomatch he
  | @transfer _ via' req' draw' p₀ _ _ _ _ =>
    have hwatch : failures.Watches false (serve V cfg s.prog i.event) ⟨s.mem, i.faults⟩
        fun r _ failed => failed = true → r.1.stageLen = progWord := by
      rw [hm]
      exact watches_transferData.andThen fun r w' failed hr => .pure fun hf =>
        (Prog.settle_stageLen r.1 via').trans (hr hf)
    obtain ⟨-, hdone⟩ := step_of_watches hwatch
    have hfull : ∀ resp, (step V cfg s i).2.out = .done resp →
        (step V cfg s i).1.prog.stageLen = progWord := fun resp hr => by
      obtain ⟨w', hw'⟩ := hdone resp hr
      exact hw' (failures_after hmem (by simpa using hfail) false)
    cases hout : (step V cfg s i).2.out with
    | done resp => exact absurd (hfull resp hout) (Nat.ne_of_lt htail)
    | cut => exact hcut hout
    | trap => exact htrap hout

/-- A download arrives whole, and the stage is indexed inside its bounds and never left full,
exactly in the runs in which no program call fails inside a block. -/
theorem download_integrity (V : Verifier) (cfg : Config) (handoff : Option (ℕ × Via)) (mem : Mem)
    (is : List Input) :
    (∀ x ∈ Trace.history (step V cfg) (start cfg handoff mem) is, NoFailedBlock x) ↔
      Trace.Along (Intact cfg) (Trace.history (step V cfg) (start cfg handoff mem) is) := by
  constructor
  · intro hc
    have hall : Trace.Along (fun _ x => NoFailedBlock x)
        (Trace.history (step V cfg) (start cfg handoff mem) is) :=
      Trace.along_of_forall fun x hx _ => hc x hx
    refine (Trace.run_along
      (I := fun (s : State) hist => Downloads cfg (received hist) s.prog s.mem ∧ s.prog.Paced)
      ⟨.boot handoff, paced_boot handoff⟩ ?_ is hall).2
    rintro es i ⟨hd, hp⟩ hx
    obtain ⟨hd', hok⟩ := intact_of_noFailedBlock hd hp hx
    exact ⟨⟨hd', paced_step hp i⟩, hok⟩
  · intro h x hx
    obtain ⟨h₁, h₂, heq⟩ := List.append_of_mem hx
    obtain ⟨is₁, i, -, rfl⟩ := Trace.history_split heq
    exact noFailedBlock_of_intact (h h₁ _ h₂ heq)

/-- A block whose word the driver fails to program, and the block sent again. -/
def failedBlock : List Input :=
  eraseFirst ++ [downloadFirst,
    ask (0x36 :: 0x01 :: List.replicate 32 0xA5) { writes := [some { cut := false }] },
    ask (0x36 :: 0x01 :: List.replicate 32 0xA5)]

/-- The block sent again is staged behind the end of the stage. -/
theorem download_not_intact :
    ¬ ∀ (V : Verifier) (cfg : Config) (handoff : Option (ℕ × Via)) (mem : Mem) (is : List Input),
      Trace.Along (Intact cfg) (Trace.history (step V cfg) (start cfg handoff mem) is) := by
  intro h
  have htrap : (Trace.history (step rejecting bench) (start bench none fun _ => none)
      failedBlock).any (fun x => match x.label.out with | .trap => true | _ => false) = true := by
    decide
  obtain ⟨x, hx, hout⟩ := List.any_eq_true.mp htrap
  obtain ⟨h₁, h₂, heq⟩ := List.append_of_mem hx
  have hne := (h rejecting bench none (fun _ => none) failedBlock h₁ x h₂ heq).1
  split at hout
  · exact hne ‹_›
  · exact nomatch hout

end BloblyEmb.Boot
