import BloblyEmb.Isotp.Halves

/-!
# Timeouts of a link

Each deadline of a link stands one timeout behind the last progress of its half: a flow control
taken or a frame sent by the transmission, a frame in sequence taken or a flow control sent by the
reception. What a tick leaves under way has moved within its timeout, a frame past it is too late,
and what has ended stays ended until it is begun again.
-/
namespace BloblyEmb.Isotp

abbrev Call := Trace.Entry Link Event (Option (List UInt8))

/-! ## What moves a transfer -/

/-- A flow control that the transmission waits for, and goes on after. -/
def AcceptsFlow (now : UInt64) (x : Call) : Prop :=
  x.before.tx = .waitFc ∧ x.after.tx ≠ .idle ∧ ∃ p, x.event = .frame now p ∧ p.pci = 0x30

/-- A frame of the transmission goes out. -/
def SendsPart (now : UInt64) (x : Call) : Prop :=
  x.event = .poll now ∧ x.before.fcOvflw = false ∧ x.before.fcSend = false ∧
    (x.before.poll now).1 ≠ none

/-- The transmission makes progress. -/
def TxMoves (now : UInt64) (x : Call) : Prop := AcceptsFlow now x ∨ SendsPart now x

/-- The reception takes a consecutive frame in sequence, and waits for more. -/
def TakesPart (now : UInt64) (x : Call) : Prop :=
  x.before.rx = .receiving ∧ ∃ p, x.event = .frame now p ∧ p.pci = 0x20 ∧
    p.low = x.before.rxSn &&& 0x0F ∧ x.after.rxPos ≠ x.before.rxPos

/-- The flow control of the reception goes out. -/
def SendsFlow (now : UInt64) (x : Call) : Prop :=
  x.event = .poll now ∧ x.before.fcOvflw = false ∧ x.before.fcSend = true

/-- The reception makes progress. -/
def RxMoves (now : UInt64) (x : Call) : Prop := TakesPart now x ∨ SendsFlow now x

/-- The transmission is in flight after a call. -/
def InFlight (x : Call) : Prop := x.after.tx ≠ .idle

/-- The reception is under way after a call, and none begins with it. -/
def UnderWay (x : Call) : Prop :=
  x.after.rx = .receiving ∧ ∀ now p, x.event = .frame now p → ¬p.Starts

/-- The transmission in flight moved less than `timeout` before. -/
def TxWithinTime (timeout : UInt64) (hist : List Call) (now : UInt64) : Prop :=
  ∃ t, Trace.Since InFlight (TxMoves t) hist ∧ now.toNat < t.toNat + timeout.toNat

/-- The reception under way moved less than `timeout` before. -/
def RxWithinTime (timeout : UInt64) (hist : List Call) (now : UInt64) : Prop :=
  ∃ t, Trace.Since UnderWay (RxMoves t) hist ∧ now.toNat < t.toNat + timeout.toNat

/-- The WAIT frames accepted in a row: a flow control that lets the transmission continue and a new
message begin the count again. -/
def waitsAfter (n : ℕ) (x : Call) : ℕ :=
  match x.event with
  | .frame _ p =>
    if x.before.tx = .waitFc ∧ x.after.tx ≠ .idle ∧ p.pci = 0x30 then
      if p.low = 1 then n + 1 else 0
    else n
  | .send _ => if x.before.tx = .idle ∧ x.after.tx ≠ .idle then 0 else n
  | _ => n

def waits (hist : List Call) : ℕ := hist.foldl waitsAfter 0

theorem waits_snoc (hist : List Call) (x : Call) :
    waits (hist ++ [x]) = waitsAfter (waits hist) x := by
  simp [waits]

theorem waitsAfter_frame (n : ℕ) (l : Link) (now : UInt64) (p : Pdu) :
    waitsAfter n (Trace.entry step l (.frame now p)) =
      if l.tx = .waitFc ∧ (l.onFrame now p).tx ≠ .idle ∧ p.pci = 0x30 then
        if p.low = 1 then n + 1 else 0
      else n := rfl

theorem waitsAfter_send (n : ℕ) (l : Link) (src : List UInt8) :
    waitsAfter n (Trace.entry step l (.send src)) =
      if l.tx = .idle ∧ (l.send src).2.tx ≠ .idle then 0 else n := rfl

/-- What the timeouts `nBs` and `nCr` and the limit of WAIT frames promise of a call. -/
structure InTime (wftMax : UInt8) (nBs nCr : UInt64) (hist : List Call) (x : Call) : Prop where
  /-- A transmission that a tick leaves waiting for flow control or sending has moved in time. -/
  sends : ∀ now, x.event = .tick now → x.after.tx = .waitFc ∨ x.after.tx = .sendCf →
    TxWithinTime nBs hist now
  /-- No flow control is accepted too late. -/
  flow : ∀ now, AcceptsFlow now x → TxWithinTime nBs hist now
  waiting : waits (hist ++ [x]) ≤ wftMax.toNat
  /-- A transmission that has ended stays so until the next message. -/
  ended : x.before.tx = .idle → x.after.tx ≠ .idle → ∃ src, x.event = .send src
  /-- A reception whose gap is timed and that a tick leaves under way has moved in time. -/
  receives : ∀ now, x.event = .tick now → x.after.rx = .receiving → x.after.rxDeadline ≠ 0 →
    RxWithinTime nCr hist now
  /-- No consecutive frame is taken too late. -/
  takes : ∀ now, TakesPart now x → x.before.rxDeadline ≠ 0 → RxWithinTime nCr hist now
  /-- A reception that has ended stays so until the next first frame. -/
  opened : x.before.rx = .idle → x.after.rx = .receiving →
    ∃ now p, x.event = .frame now p ∧ p.Starts
  rxIndex : RxWithin x.after
  txIndex : TxWithin x.after

/-! ## The invariant -/

/-- The deadlines and the count of a link, from the calls that set them. -/
structure Timed (wftMax : UInt8) (nBs nCr : UInt64) (l : Link) (hist : List Call) : Prop where
  settings : l.nBsUs = nBs ∧ l.nCrUs = nCr ∧ l.wftMax = wftMax
  tx : l.tx = .waitFc ∨ l.tx = .sendCf →
    ∃ t, l.fcDeadline = t + nBs ∧ Trace.Since InFlight (TxMoves t) hist
  rx : l.rx = .receiving → l.rxDeadline ≠ 0 →
    ∃ t, l.rxDeadline = t + nCr ∧ Trace.Since UnderWay (RxMoves t) hist
  count : waits hist = l.wftCount.toNat
  limit : l.wftCount ≤ wftMax
  rxIndex : RxWithin l
  txIndex : TxWithin l

section
variable {now t d : UInt64}

/-- A deadline that wraps around only comes earlier. -/
theorem before_deadline (h : ¬t + d ≤ now) : now.toNat < t.toNat + d.toNat := by
  rw [UInt64.le_iff_toNat_le, UInt64.toNat_add] at h
  have := Nat.mod_le (t.toNat + d.toNat) (2 ^ 64)
  omega

end

/-! ## What the calls do to the deadlines -/

namespace Link
variable (l : Link) (now : UInt64) (p : Pdu)

/-- A flow control is ignored, ends the transmission, or lets it go on from now. -/
theorem onFlow_spec :
    (l.tx ≠ .waitFc ∧ l.onFlow now p = l) ∨
      (l.tx = .waitFc ∧ (l.onFlow now p).tx = .idle ∧ (l.onFlow now p).wftCount = l.wftCount) ∨
      (l.tx = .waitFc ∧ ¬(l.nBsUs ≠ 0 ∧ l.fcDeadline ≤ now) ∧
        (l.onFlow now p).fcDeadline = now + l.nBsUs ∧
        ((p.low = 0 ∧ (l.onFlow now p).tx = .sendCf ∧ (l.onFlow now p).wftCount = 0) ∨
          (p.low = 1 ∧ (l.onFlow now p).tx = .waitFc ∧
            ¬(l.wftMax ≠ 0 ∧ l.wftMax ≤ l.wftCount) ∧
            (l.onFlow now p).wftCount = l.wftCount + 1))) := by
  simp only [onFlow, giveUpTx]
  by_cases htx : l.tx = .waitFc
  · simp only [htx, ne_eq, not_true_eq_false, if_false]
    split
    · simp
    · rename_i hlate
      split
      · simp_all
      · split
        · split
          · simp
          · rename_i hlow hlimit
            simp_all
        · simp
  · simp [htx]

/-- A poll leaves the transmission as it is, ends it, or sends a frame of it. -/
theorem poll_tx_spec :
    SameTx l (l.poll now).2 ∨
      ((l.poll now).2.tx = .idle ∧ (l.poll now).2.wftCount = l.wftCount) ∨
      (l.fcOvflw = false ∧ l.fcSend = false ∧ (l.poll now).1 ≠ none ∧
        (l.poll now).2.fcDeadline = now + l.nBsUs ∧ (l.poll now).2.wftCount = l.wftCount) := by
  simp only [poll]
  split
  · exact .inl (by constructor <;> simp)
  split
  · exact .inl (by constructor <;> simp)
  rename_i hover hflow
  split
  · exact .inl (SameTx.refl l)
  · exact .inr (.inl ⟨rfl, rfl⟩)
  · refine .inr (.inr ⟨?_, ?_, ?_, rfl, rfl⟩)
    · simpa using hover
    · simpa using hflow
    · simp
  · dsimp only
    split
    · exact .inr (.inl ⟨rfl, rfl⟩)
    · exact .inl (SameTx.refl l)
  · have hsent : ∀ f : Pdu, some f ≠ none := by simp
    simp only [pollCf]
    split
    · exact .inl (SameTx.refl l)
    split
    · exact .inr (.inl ⟨rfl, rfl⟩)
    split
    · split
      · exact .inr (.inr ⟨by simpa using hover, by simpa using hflow, hsent _, rfl, rfl⟩)
      · exact .inr (.inr ⟨by simpa using hover, by simpa using hflow, hsent _, rfl, rfl⟩)
    · exact .inr (.inr ⟨by simpa using hover, by simpa using hflow, hsent _, rfl, rfl⟩)

/-- A poll leaves the reception as it is, or sends its flow control. -/
theorem poll_rx_spec :
    (l.poll now).2.rx = l.rx ∧
      ((l.poll now).2.rxDeadline = l.rxDeadline ∨
        (l.fcOvflw = false ∧ l.fcSend = true ∧ (l.poll now).2.rxDeadline = now + l.nCrUs)) := by
  simp only [poll]
  split
  · simp
  split
  · simp_all
  split
  · simp
  · simp
  · simp
  · dsimp only
    split
    · simp [giveUpTx]
    · simp
  · have h := l.sameRx_pollCf now
    exact ⟨h.rx, .inl h.rxDeadline⟩

/-- What is not a consecutive frame leaves no reception, leaves it as it is, or begins one. -/
theorem onFrame_rx_spec (hp : p.pci ≠ 0x20) :
    (l.onFrame now p).rx = .idle ∨
      ((l.onFrame now p).rx = l.rx ∧ (l.onFrame now p).rxDeadline = l.rxDeadline ∧ ¬p.Starts) ∨
      ((l.onFrame now p).rxDeadline = 0 ∧ p.Starts) := by
  have hfirst : p.pci ≠ 0x10 → ¬p.Starts := fun hne hs => hne hs.1
  simp only [onFrame, if_neg hp]
  split
  · rename_i h₀
    have hno := hfirst (by rw [h₀]; decide)
    simp only [onSingle]
    split
    · exact .inl rfl
    · exact .inr (.inl ⟨rfl, rfl, hno⟩)
  split
  · rename_i h₁
    simp only [onFirst]
    split
    · rename_i hn
      exact .inr (.inr ⟨rfl, h₁, hn⟩)
    · rename_i hn
      split
      · exact .inl rfl
      · exact .inr (.inl ⟨rfl, rfl, fun hs => hn hs.2⟩)
  · rename_i h₁
    split
    · have h := l.sameRx_onFlow now p
      exact .inr (.inl ⟨h.rx, h.rxDeadline, hfirst h₁⟩)
    · exact .inr (.inl ⟨rfl, rfl, hfirst h₁⟩)

/-- A consecutive frame ends the reception or finds none, or is taken in time and in sequence. -/
theorem onConsecutive_rx_spec (hpos : l.rx = .receiving → l.rxPos < l.rxLen) :
    ((l.onConsecutive now p).rx = .idle ∧ (l.onConsecutive now p).rxPos = l.rxPos) ∨
      (l.rx = .receiving ∧ ¬l.crExpired now ∧ p.low = l.rxSn &&& 0x0F ∧
        (l.onConsecutive now p).rxPos ≠ l.rxPos ∧
        ((l.onConsecutive now p).rxDeadline = now + l.nCrUs ∨
          (l.onConsecutive now p).rxDeadline = 0 ∨ (l.onConsecutive now p).rx = .idle)) := by
  simp only [onConsecutive]
  by_cases hexp : l.crExpired now
  · simp only [if_pos hexp, reduceCtorEq, false_and, if_false]
    simp
  · simp only [if_neg hexp]
    by_cases hrx : l.rx = .receiving
    · by_cases hsn : p.low = l.rxSn &&& 0x0F
      · have hmore := hpos hrx
        have hmoved : l.rxPos + min (l.rxLen - l.rxPos) 7 ≠ l.rxPos := by omega
        rw [if_pos ⟨hrx, hsn⟩]
        refine .inr ⟨hrx, hexp, hsn, ?_⟩
        simp only [inSequence]
        split
        · exact ⟨hmoved, .inr (.inr rfl)⟩
        · split
          · exact ⟨hmoved, .inr (.inl rfl)⟩
          · exact ⟨hmoved, .inl rfl⟩
      · rw [if_neg (fun hx => hsn hx.2), if_pos hrx]
        exact .inl ⟨rfl, rfl⟩
    · have hidle : l.rx = .idle := by
        cases hx : l.rx with
        | idle => rfl
        | receiving => exact absurd hx hrx
      rw [if_neg (fun hx => hrx hx.1), if_neg hrx]
      exact .inl ⟨hidle, rfl⟩

theorem onFrame_flow (hp : p.pci = 0x30) : l.onFrame now p = l.onFlow now p := by
  simp [onFrame, hp]

theorem onFrame_consecutive (hp : p.pci = 0x20) : l.onFrame now p = l.onConsecutive now p := by
  simp [onFrame, hp]

/-- Only a flow control concerns the transmission. -/
theorem sameTx_onFrame (hp : p.pci ≠ 0x30) : SameTx l (l.onFrame now p) := by
  simp only [onFrame, if_neg hp]
  split
  · exact l.sameTx_onSingle p
  split
  · exact l.sameTx_onFirst p
  split
  · exact l.sameTx_onConsecutive now p
  · exact SameTx.refl l

theorem tickTx_spec :
    ((l.tickTx now).tx = .idle ∧ (l.tickTx now).wftCount = l.wftCount) ∨
      (¬l.bsExpired now ∧ l.tickTx now = l) := by
  simp only [tickTx, giveUpTx]
  split
  · exact .inl ⟨rfl, rfl⟩
  · exact .inr ⟨‹_›, rfl⟩

theorem tickRx_spec :
    ((l.tickRx now).rx = .idle) ∨ (¬l.crExpired now ∧ l.tickRx now = l) := by
  simp only [tickRx]
  split
  · exact .inl rfl
  · exact .inr ⟨‹_›, rfl⟩

/-- A message is refused, or waits to be sent. -/
theorem send_spec (src : List UInt8) :
    (l.send src).2 = l ∨
      (l.tx = .idle ∧ ((l.send src).2.tx = .sendSf ∨ (l.send src).2.tx = .sendFf) ∧
        (l.send src).2.wftCount = 0) := by
  simp only [send]
  split
  · exact .inl rfl
  · rename_i hn
    refine .inr ⟨by_contra fun hx => hn (.inl hx), ?_, rfl⟩
    dsimp only
    split
    · exact .inl rfl
    · exact .inr rfl

end Link

namespace Timed
variable {wftMax : UInt8} {nBs nCr : UInt64} {l : Link} {hist : List Call} {e : Event}

/-- The sending half stands as it did. -/
theorem tx_kept (h : Timed wftMax nBs nCr l hist) (hs : SameTx l (step l e).1) :
    (step l e).1.tx = .waitFc ∨ (step l e).1.tx = .sendCf →
      ∃ t, (step l e).1.fcDeadline = t + nBs ∧
        Trace.Since InFlight (TxMoves t) (hist ++ [Trace.entry step l e]) := by
  rw [hs.tx, hs.fcDeadline]
  intro htx
  obtain ⟨t, ht, hsince⟩ := h.tx htx
  refine ⟨t, ht, hsince.snoc ?_⟩
  simp only [InFlight, Trace.entry_after, hs.tx]
  rcases htx with htx | htx
  · simp [htx]
  · simp [htx]

/-- The receiving half stands as it did. -/
theorem rx_kept (h : Timed wftMax nBs nCr l hist) (hs : SameRx l (step l e).1)
    (hno : ∀ now p, e = .frame now p → ¬p.Starts) :
    (step l e).1.rx = .receiving → (step l e).1.rxDeadline ≠ 0 →
      ∃ t, (step l e).1.rxDeadline = t + nCr ∧
        Trace.Since UnderWay (RxMoves t) (hist ++ [Trace.entry step l e]) := by
  rw [hs.rx, hs.rxDeadline]
  intro hrx hd
  obtain ⟨t, ht, hsince⟩ := h.rx hrx hd
  exact ⟨t, ht, hsince.snoc ⟨hs.rx.trans hrx, hno⟩⟩

/-- The sending half has ended. -/
theorem tx_over (htx : (step l e).1.tx = .idle) :
    (step l e).1.tx = .waitFc ∨ (step l e).1.tx = .sendCf →
      ∃ t, (step l e).1.fcDeadline = t + nBs ∧
        Trace.Since InFlight (TxMoves t) (hist ++ [Trace.entry step l e]) := by
  rw [htx]
  simp

/-- The sending half has just moved. -/
theorem tx_moved (h : Timed wftMax nBs nCr l hist) {now : UInt64}
    (hd : (step l e).1.fcDeadline = now + l.nBsUs) (hmoves : TxMoves now (Trace.entry step l e)) :
    (step l e).1.tx = .waitFc ∨ (step l e).1.tx = .sendCf →
      ∃ t, (step l e).1.fcDeadline = t + nBs ∧
        Trace.Since InFlight (TxMoves t) (hist ++ [Trace.entry step l e]) := by
  intro htx
  refine ⟨now, by rw [hd, h.settings.1], Trace.Since.now hist hmoves ?_⟩
  simp only [InFlight, Trace.entry_after]
  rcases htx with htx | htx
  · simp [htx]
  · simp [htx]

/-- The receiving half has ended. -/
theorem rx_over (hrx : (step l e).1.rx = .idle) :
    (step l e).1.rx = .receiving → (step l e).1.rxDeadline ≠ 0 →
      ∃ t, (step l e).1.rxDeadline = t + nCr ∧
        Trace.Since UnderWay (RxMoves t) (hist ++ [Trace.entry step l e]) := by
  rw [hrx]
  simp

/-- The receiving half has just moved. -/
theorem rx_moved (h : Timed wftMax nBs nCr l hist) {now : UInt64}
    (hd : (step l e).1.rxDeadline = now + l.nCrUs) (hmoves : RxMoves now (Trace.entry step l e))
    (hno : ∀ now p, e = .frame now p → ¬p.Starts) :
    (step l e).1.rx = .receiving → (step l e).1.rxDeadline ≠ 0 →
      ∃ t, (step l e).1.rxDeadline = t + nCr ∧
        Trace.Since UnderWay (RxMoves t) (hist ++ [Trace.entry step l e]) := by
  intro hrx _
  exact ⟨now, by rw [hd, h.settings.2.1], Trace.Since.now hist hmoves ⟨hrx, hno⟩⟩

theorem tx_step (h : Timed wftMax nBs nCr l hist) (e : Event) :
    (step l e).1.tx = .waitFc ∨ (step l e).1.tx = .sendCf →
      ∃ t, (step l e).1.fcDeadline = t + nBs ∧
        Trace.Since InFlight (TxMoves t) (hist ++ [Trace.entry step l e]) := by
  cases e with
  | frame now p =>
    by_cases hp : p.pci = 0x30
    · have heq : (step l (.frame now p)).1 = l.onFlow now p := l.onFrame_flow now p hp
      rcases l.onFlow_spec now p with ⟨-, hsame⟩ | ⟨-, hidle, -⟩ | ⟨hwait, -, hd, hphase⟩
      · exact h.tx_kept (by rw [heq, hsame]; simp)
      · exact tx_over (heq ▸ hidle)
      · refine h.tx_moved (by rw [heq, hd]) (.inl ⟨hwait, ?_, p, rfl, hp⟩)
        rw [Trace.entry_after, heq]
        rcases hphase with ⟨-, htx, -⟩ | ⟨-, htx, -⟩
        · simp [htx]
        · simp [htx]
    · exact h.tx_kept (l.sameTx_onFrame now p hp)
  | poll now =>
    rcases l.poll_tx_spec now with hsame | ⟨hidle, -⟩ | ⟨hover, hflow, hsome, hd, -⟩
    · exact h.tx_kept hsame
    · exact tx_over hidle
    · exact h.tx_moved hd (.inr ⟨rfl, hover, hflow, hsome⟩)
  | tick now =>
    have hsame := Link.sameTx_tickRx (l.tickTx now) now
    rcases l.tickTx_spec now with ⟨hidle, -⟩ | ⟨-, heq⟩
    · exact tx_over (hsame.tx.trans hidle)
    · rw [heq] at hsame
      refine h.tx_kept ?_
      rw [show (step l (.tick now)).1 = (l.tickTx now).tickRx now from rfl, heq]
      exact hsame
  | take =>
    refine h.tx_kept ?_
    simp only [step, Link.take]
    split <;> constructor <;> simp
  | send src =>
    rcases l.send_spec src with hsame | ⟨-, hsend, -⟩
    · exact h.tx_kept (by rw [step, hsame]; simp)
    · intro htx
      simp only [step] at htx
      rcases hsend with hsend | hsend
      · simp [hsend] at htx
      · simp [hsend] at htx
  | abortTx => exact tx_over rfl
  | abortRx => exact h.tx_kept (by constructor <;> simp [step, Link.abortRx])

theorem rx_step (h : Timed wftMax nBs nCr l hist) (e : Event) :
    (step l e).1.rx = .receiving → (step l e).1.rxDeadline ≠ 0 →
      ∃ t, (step l e).1.rxDeadline = t + nCr ∧
        Trace.Since UnderWay (RxMoves t) (hist ++ [Trace.entry step l e]) := by
  cases e with
  | frame now p =>
    by_cases hp : p.pci = 0x20
    · have heq : (step l (.frame now p)).1 = l.onConsecutive now p := l.onFrame_consecutive now p hp
      have hno : ∀ now' p', Event.frame now p = .frame now' p' → ¬p'.Starts := by
        rintro now' p' ⟨⟩ hs
        rw [hs.1] at hp
        cases hp
      rcases l.onConsecutive_rx_spec now p h.rxIndex.more with
        ⟨hidle, -⟩ | ⟨hrx, -, hsn, hpos, hd | hd | hidle⟩
      · exact rx_over (heq ▸ hidle)
      · refine h.rx_moved (by rw [heq, hd]) (.inl ⟨hrx, p, rfl, hp, hsn, ?_⟩) hno
        rw [Trace.entry_after, heq]
        exact hpos
      · intro _ hne
        rw [heq] at hne
        exact absurd hd hne
      · exact rx_over (heq ▸ hidle)
    · rcases l.onFrame_rx_spec now p hp with hidle | ⟨hrx, hd, hs⟩ | ⟨hd, -⟩
      · exact rx_over hidle
      · intro hx hne
        obtain ⟨t, ht, hsince⟩ := h.rx (hrx.symm.trans hx) (fun hz => hne (hd.trans hz))
        refine ⟨t, hd.trans ht, hsince.snoc ⟨hx, ?_⟩⟩
        rintro now' p' ⟨⟩
        exact hs
      · intro _ hne
        exact absurd hd hne
  | poll now =>
    obtain ⟨hrx, hd | ⟨hover, hflow, hd⟩⟩ := l.poll_rx_spec now
    · intro hx hne
      obtain ⟨t, ht, hsince⟩ := h.rx (hrx.symm.trans hx) (fun hz => hne (hd.trans hz))
      exact ⟨t, hd.trans ht, hsince.snoc ⟨hx, (by intros; contradiction)⟩⟩
    · exact h.rx_moved hd (.inr ⟨rfl, hover, hflow⟩) (by intros; contradiction)
  | tick now =>
    have hsame := l.sameRx_tickTx now
    rcases (l.tickTx now).tickRx_spec now with hidle | ⟨-, heq⟩
    · exact rx_over hidle
    · refine h.rx_kept ?_ (by intros; contradiction)
      rw [show (step l (.tick now)).1 = (l.tickTx now).tickRx now from rfl, heq]
      exact hsame
  | take =>
    refine h.rx_kept ?_ (by intros; contradiction)
    simp only [step, Link.take]
    split <;> constructor <;> simp
  | send src => exact h.rx_kept (l.sameRx_send src) (by intros; contradiction)
  | abortTx => exact h.rx_kept (by constructor <;> simp [step, Link.abortTx]) (by intros; contradiction)
  | abortRx => exact rx_over rfl

/-- The count of the link is that of the history, and within its limit. -/
theorem count_step (h : Timed wftMax nBs nCr l hist) (hmax : wftMax ≠ 0) (e : Event) :
    waits (hist ++ [Trace.entry step l e]) = (step l e).1.wftCount.toNat ∧
      (step l e).1.wftCount ≤ wftMax := by
  rw [waits_snoc, h.count]
  have hkept : ∀ n : UInt8, n = l.wftCount → l.wftCount.toNat = n.toNat ∧ n ≤ wftMax := by
    rintro n rfl
    exact ⟨rfl, h.limit⟩
  cases e with
  | frame now p =>
    rw [waitsAfter_frame, show (Isotp.step l (.frame now p)).1 = l.onFrame now p from rfl]
    by_cases hp : p.pci = 0x30
    · rw [l.onFrame_flow now p hp]
      rcases l.onFlow_spec now p with ⟨hwait, hsame⟩ | ⟨-, hidle, hc⟩ |
        ⟨hwait, -, -, ⟨hlow, htx, hc⟩ | ⟨hlow, htx, hlimit, hc⟩⟩
      · rw [if_neg (fun hx => hwait hx.1), hsame]
        exact hkept _ rfl
      · rw [if_neg (fun hx => hx.2.1 hidle)]
        exact hkept _ hc
      · rw [if_pos ⟨hwait, by simp [htx], hp⟩, if_neg (by simp [hlow]), hc]
        exact ⟨rfl, UInt8.zero_le⟩
      · rw [if_pos ⟨hwait, by simp [htx], hp⟩, if_pos hlow, hc]
        have hless : l.wftCount.toNat < wftMax.toNat := by
          rw [h.settings.2.2] at hlimit
          exact UInt8.lt_iff_toNat_lt.mp (UInt8.not_le.mp fun hle => hlimit ⟨hmax, hle⟩)
        have hbound := wftMax.toNat_lt
        have hsucc : (l.wftCount + 1).toNat = l.wftCount.toNat + 1 := by
          rw [UInt8.toNat_add, UInt8.toNat_one]
          omega
        refine ⟨hsucc.symm, ?_⟩
        rw [UInt8.le_iff_toNat_le, hsucc]
        omega
    · rw [if_neg (fun hx => hp hx.2.2)]
      exact hkept _ (l.sameTx_onFrame now p hp).wftCount
  | poll now =>
    rcases l.poll_tx_spec now with hsame | ⟨-, hc⟩ | ⟨-, -, -, -, hc⟩
    · exact hkept _ hsame.wftCount
    · exact hkept _ hc
    · exact hkept _ hc
  | tick now =>
    have hsame := Link.sameTx_tickRx (l.tickTx now) now
    rcases l.tickTx_spec now with ⟨-, hc⟩ | ⟨-, heq⟩
    · exact hkept _ (hsame.wftCount.trans hc)
    · exact hkept _ (hsame.wftCount.trans (by rw [heq]))
  | take =>
    refine hkept _ ?_
    simp only [step, Link.take]
    split <;> simp
  | send src =>
    rw [waitsAfter_send, show (Isotp.step l (.send src)).1 = (l.send src).2 from rfl]
    rcases l.send_spec src with hsame | ⟨hidle, hsend, hc⟩
    · rw [hsame, if_neg (fun hx => hx.2 hx.1)]
      exact hkept _ rfl
    · have hflight : (l.send src).2.tx ≠ .idle := by
        rcases hsend with hsend | hsend
        · simp [hsend]
        · simp [hsend]
      rw [if_pos ⟨hidle, hflight⟩, hc]
      exact ⟨rfl, UInt8.zero_le⟩
  | abortTx => exact hkept _ rfl
  | abortRx => exact hkept _ rfl

theorem step (h : Timed wftMax nBs nCr l hist) (hmax : wftMax ≠ 0) (e : Event) :
    Timed wftMax nBs nCr (Isotp.step l e).1 (hist ++ [Trace.entry Isotp.step l e]) := by
  have hset := sameSettings_step l e
  have hwithin := within_step h.rxIndex h.txIndex e
  have hcount := h.count_step hmax e
  exact ⟨⟨hset.nBsUs.trans h.settings.1, hset.nCrUs.trans h.settings.2.1,
    hset.wftMax.trans h.settings.2.2⟩, h.tx_step e, h.rx_step e, hcount.1, hcount.2, hwithin.1,
    hwithin.2⟩

/-- The deadline of a transmission that is not late is one timeout behind its last progress. -/
theorem tx_within (h : Timed wftMax nBs nCr l hist) {now : UInt64}
    (htx : l.tx = .waitFc ∨ l.tx = .sendCf) (hd : ¬l.fcDeadline ≤ now) :
    TxWithinTime nBs hist now := by
  obtain ⟨t, ht, hsince⟩ := h.tx htx
  exact ⟨t, hsince, before_deadline (by rwa [ht] at hd)⟩

theorem rx_within (h : Timed wftMax nBs nCr l hist) {now : UInt64} (hrx : l.rx = .receiving)
    (hne : l.rxDeadline ≠ 0) (hd : ¬l.rxDeadline ≤ now) : RxWithinTime nCr hist now := by
  obtain ⟨t, ht, hsince⟩ := h.rx hrx hne
  exact ⟨t, hsince, before_deadline (by rwa [ht] at hd)⟩

/-- What a call does is in time, by the state it starts in. -/
theorem inTime (h : Timed wftMax nBs nCr l hist) (hBs : nBs ≠ 0) (hCr : nCr ≠ 0)
    (hmax : wftMax ≠ 0) (e : Event) :
    InTime wftMax nBs nCr hist (Trace.entry Isotp.step l e) where
  sends now he htx := by
    cases he
    have hsame := Link.sameTx_tickRx (l.tickTx now) now
    have htx' : (l.tickTx now).tx = .waitFc ∨ (l.tickTx now).tx = .sendCf := by
      rw [← hsame.tx]
      exact htx
    rcases l.tickTx_spec now with ⟨hidle, -⟩ | ⟨hlate, heq⟩
    · simp [hidle] at htx'
    · rw [heq] at htx'
      exact h.tx_within htx' fun hd => hlate ⟨by rw [h.settings.1]; exact hBs, htx', hd⟩
  flow now hx := by
    obtain ⟨hwait, hflight, p, he, hp⟩ := hx
    cases he
    rw [Trace.entry_before] at hwait
    rw [Trace.entry_after, show (Isotp.step l (.frame now p)).1 = l.onFlow now p from
      l.onFrame_flow now p hp] at hflight
    rcases l.onFlow_spec now p with ⟨hno, -⟩ | ⟨-, hidle, -⟩ | ⟨-, hlate, -⟩
    · exact absurd hwait hno
    · exact absurd hidle hflight
    · exact h.tx_within (.inl hwait) fun hd => hlate ⟨by rw [h.settings.1]; exact hBs, hd⟩
  waiting := by
    obtain ⟨hcount, hlimit⟩ := h.count_step hmax e
    rw [hcount]
    exact UInt8.le_iff_toNat_le.mp hlimit
  ended hidle hflight := by
    cases e with
    | send src => exact ⟨src, rfl⟩
    | frame now p =>
      by_cases hp : p.pci = 0x30
      · rw [Trace.entry_after, show (Isotp.step l (.frame now p)).1 = l.onFlow now p from
          l.onFrame_flow now p hp] at hflight
        rw [Trace.entry_before] at hidle
        rcases l.onFlow_spec now p with ⟨-, hsame⟩ | ⟨hwait, -⟩ | ⟨hwait, -⟩
        · exact absurd ((congrArg Link.tx hsame).trans hidle) hflight
        · simp [hidle] at hwait
        · simp [hidle] at hwait
      · exact absurd ((l.sameTx_onFrame now p hp).tx.trans hidle) hflight
    | poll now =>
      have hstays : (l.poll now).2.tx = .idle := by
        rw [Trace.entry_before] at hidle
        simp only [Link.poll, hidle]
        split
        · rfl
        · split
          · rfl
          · exact hidle
      exact absurd hstays hflight
    | tick now =>
      have hsame := Link.sameTx_tickRx (l.tickTx now) now
      rcases l.tickTx_spec now with ⟨hgone, -⟩ | ⟨-, heq⟩
      · exact absurd (hsame.tx.trans hgone) hflight
      · exact absurd (hsame.tx.trans ((congrArg Link.tx heq).trans hidle)) hflight
    | take =>
      refine absurd ?_ hflight
      simp only [Trace.entry_after, Isotp.step, Link.take]
      split
      · exact hidle
      · exact hidle
    | abortTx => exact absurd rfl hflight
    | abortRx => exact absurd hidle hflight
  receives now he hrx hne := by
    cases he
    have hsame := l.sameRx_tickTx now
    have hset := l.sameSettings_tickTx now
    rw [Trace.entry_after, show (Isotp.step l (.tick now)).1 = (l.tickTx now).tickRx now from rfl]
      at hrx hne
    rcases (l.tickTx now).tickRx_spec now with hidle | ⟨hlate, heq⟩
    · simp [hidle] at hrx
    · rw [heq, hsame.rx] at hrx
      rw [heq, hsame.rxDeadline] at hne
      rw [Link.crExpired_of_same hsame hset] at hlate
      exact h.rx_within hrx hne fun hd => hlate ⟨hrx, by rw [h.settings.2.1]; exact hCr, hne, hd⟩
  takes now hx hne := by
    obtain ⟨hrx, p, he, hp, -, hpos⟩ := hx
    cases he
    rw [Trace.entry_before] at hrx hpos hne
    rw [Trace.entry_after, show (Isotp.step l (.frame now p)).1 = l.onConsecutive now p from
      l.onFrame_consecutive now p hp] at hpos
    rcases l.onConsecutive_rx_spec now p h.rxIndex.more with ⟨-, hsame⟩ | ⟨-, hlate, -⟩
    · exact absurd hsame hpos
    · exact h.rx_within hrx hne fun hd => hlate ⟨hrx, by rw [h.settings.2.1]; exact hCr, hne, hd⟩
  opened hidle hrx := by
    rw [Trace.entry_before] at hidle
    rw [Trace.entry_after] at hrx
    cases e with
    | frame now p =>
      refine ⟨now, p, rfl, ?_⟩
      by_cases hp : p.pci = 0x20
      · rw [show (Isotp.step l (.frame now p)).1 = l.onConsecutive now p from
          l.onFrame_consecutive now p hp] at hrx
        rcases l.onConsecutive_rx_spec now p h.rxIndex.more with ⟨hgone, -⟩ | ⟨hlive, -⟩
        · simp [hgone] at hrx
        · simp [hidle] at hlive
      · rw [show (Isotp.step l (.frame now p)).1 = l.onFrame now p from rfl] at hrx
        rcases l.onFrame_rx_spec now p hp with hgone | ⟨hsame, -⟩ | ⟨-, hs⟩
        · simp [hgone] at hrx
        · simp [hsame, hidle] at hrx
        · exact hs
    | poll now =>
      have hsame := (l.poll_rx_spec now).1
      simp [Isotp.step, hsame, hidle] at hrx
    | tick now =>
      have hsame := l.sameRx_tickTx now
      rw [show (Isotp.step l (.tick now)).1 = (l.tickTx now).tickRx now from rfl] at hrx
      rcases (l.tickTx now).tickRx_spec now with hgone | ⟨-, heq⟩
      · simp [hgone] at hrx
      · simp [heq, hsame.rx, hidle] at hrx
    | take =>
      simp only [Isotp.step, Link.take] at hrx
      split at hrx
      · simp [hidle] at hrx
      · simp [hidle] at hrx
    | send src =>
      have hsame := l.sameRx_send src
      simp [Isotp.step, hsame.rx, hidle] at hrx
    | abortTx => simp [Isotp.step, Link.abortTx, hidle] at hrx
    | abortRx => simp [Isotp.step, Link.abortRx] at hrx
  rxIndex := (within_step h.rxIndex h.txIndex e).1
  txIndex := (within_step h.rxIndex h.txIndex e).2

end Timed

theorem timed_fresh (bs stmin wftMax : UInt8) (nBs nCr : UInt64) :
    Timed wftMax nBs nCr (fresh bs stmin wftMax nBs nCr) [] where
  settings := ⟨rfl, rfl, rfl⟩
  tx := by simp [fresh]
  rx := by simp [fresh]
  count := rfl
  limit := UInt8.zero_le
  rxIndex := (within_fresh bs stmin wftMax nBs nCr).1
  txIndex := (within_fresh bs stmin wftMax nBs nCr).2

/-- In every run of a link with its timeouts and its limit of WAIT frames set, whatever the order of
frames, polls and ticks and whatever the times they carry, every call is in time. -/
theorem timeouts_bound_transfers (bs stmin wftMax : UInt8) (nBs nCr : UInt64) (hBs : nBs ≠ 0)
    (hCr : nCr ≠ 0) (hmax : wftMax ≠ 0) (es : List Event) :
    Trace.Along (InTime wftMax nBs nCr)
      (Trace.history step (fresh bs stmin wftMax nBs nCr) es) :=
  (Trace.run_along (I := Timed wftMax nBs nCr) (C := fun _ _ => True)
    (timed_fresh bs stmin wftMax nBs nCr)
    (fun _ e h _ => ⟨h.step hmax e, h.inTime hBs hCr hmax e⟩) es (fun _ _ _ _ => trivial)).2

/-- A message of twenty bytes: the receiver asks for time once, then grants blocks of two, and is
gone. -/
def abandoned : List Event :=
  [.send (List.replicate 20 0x55), .poll 0, .frame 10 (pdu [0x31, 0, 0]), .tick 20,
    .frame 30 (pdu [0x30, 2, 0]), .poll 40, .poll 50, .tick 60, .tick 2000000]

/-- With the timeouts that every owner sets. -/
theorem timeouts_bound_transfers_abandoned :
    Trace.Along (InTime 16 1000000 1000000)
      (Trace.history step (fresh 0 0 16 1000000 1000000) abandoned) :=
  timeouts_bound_transfers 0 0 16 1000000 1000000 (by decide) (by decide) (by decide) abandoned

end BloblyEmb.Isotp
