import BloblyEmb.Isotp.Receive

/-!
# The two halves of a link

A link receives and sends, and every call is about one half or the other, or about each in turn:
what it leaves of the other half is stated once here. Then the buffers: neither half ever points
past the message it is about.
-/
namespace BloblyEmb.Isotp

/-- The receiving halves agree. -/
structure SameRx (l l' : Link) : Prop where
  rx : l'.rx = l.rx
  fcSend : l'.fcSend = l.fcSend
  rxLen : l'.rxLen = l.rxLen
  rxPos : l'.rxPos = l.rxPos
  rxDeadline : l'.rxDeadline = l.rxDeadline

/-- The sending halves agree. -/
structure SameTx (l l' : Link) : Prop where
  tx : l'.tx = l.tx
  txLen : l'.txLen = l.txLen
  txPos : l'.txPos = l.txPos
  fcDeadline : l'.fcDeadline = l.fcDeadline
  wftCount : l'.wftCount = l.wftCount

/-- The owner's settings agree. -/
structure SameSettings (l l' : Link) : Prop where
  nBsUs : l'.nBsUs = l.nBsUs
  nCrUs : l'.nCrUs = l.nCrUs
  wftMax : l'.wftMax = l.wftMax

section
variable {l l' l'' : Link}

@[simp] theorem SameRx.refl (l : Link) : SameRx l l := ⟨rfl, rfl, rfl, rfl, rfl⟩

@[simp] theorem SameTx.refl (l : Link) : SameTx l l := ⟨rfl, rfl, rfl, rfl, rfl⟩

@[simp] theorem SameSettings.refl (l : Link) : SameSettings l l := ⟨rfl, rfl, rfl⟩

theorem SameSettings.trans (h : SameSettings l l') (h' : SameSettings l' l'') :
    SameSettings l l'' :=
  ⟨h'.nBsUs.trans h.nBsUs, h'.nCrUs.trans h.nCrUs, h'.wftMax.trans h.wftMax⟩

end

namespace Link
variable (l : Link) (now : UInt64) (p : Pdu)

/-! ## What a call leaves of the other half -/

theorem sameTx_onSingle : SameTx l (l.onSingle p) := by
  simp only [onSingle]
  split <;> constructor <;> simp

theorem sameTx_onFirst : SameTx l (l.onFirst p) := by
  simp only [onFirst]
  split
  · constructor <;> simp
  · split <;> constructor <;> simp

theorem sameTx_inSequence : SameTx l (l.inSequence now p) := by
  simp only [inSequence]
  split
  · constructor <;> simp
  · split <;> constructor <;> simp

theorem sameTx_onConsecutive : SameTx l (l.onConsecutive now p) := by
  simp only [onConsecutive]
  by_cases hexp : l.crExpired now
  · simp only [if_pos hexp, reduceCtorEq, false_and, if_false]
    constructor <;> simp
  · simp only [if_neg hexp]
    split
    · exact sameTx_inSequence l now p
    · split <;> constructor <;> simp

theorem sameRx_onFlow : SameRx l (l.onFlow now p) := by
  simp only [onFlow, giveUpTx]
  split
  · simp
  · split
    · constructor <;> simp
    · split
      · constructor <;> simp
      · split
        · split <;> constructor <;> simp
        · constructor <;> simp

theorem sameRx_send (src : List UInt8) : SameRx l (l.send src).2 := by
  simp only [send]
  split <;> constructor <;> simp

theorem sameRx_pollCf : SameRx l (l.pollCf now).2 := by
  simp only [pollCf]
  split
  · simp
  · split
    · constructor <;> simp
    · split
      · split <;> constructor <;> simp
      · constructor <;> simp

/-! ## The two parts of a tick -/

/-- The sending half gives up. -/
def tickTx : Link := if l.bsExpired now then l.giveUpTx else l

/-- The receiving half gives up. -/
def tickRx : Link := if l.crExpired now then { l with rx := .idle, fcSend := false } else l

theorem tick_eq : l.tick now = (l.tickTx now).tickRx now := rfl

theorem sameRx_tickTx : SameRx l (l.tickTx now) := by
  simp only [tickTx, giveUpTx]
  split <;> constructor <;> simp

theorem sameTx_tickRx : SameTx l (l.tickRx now) := by
  simp only [tickRx]
  split <;> constructor <;> simp

theorem crExpired_of_same {l l' : Link} (h : SameRx l l') (hset : SameSettings l l')
    (now : UInt64) : l'.crExpired now ↔ l.crExpired now := by
  simp only [crExpired, h.rx, h.rxDeadline, hset.nCrUs]

/-! ## The settings -/

theorem sameSettings_onFrame : SameSettings l (l.onFrame now p) := by
  simp only [onFrame, onSingle, onFirst, onFlow, giveUpTx]
  split
  · split <;> constructor <;> simp
  split
  · split
    · constructor <;> simp
    · split <;> constructor <;> simp
  split
  · have hseq : ∀ l : Link, SameSettings l (l.inSequence now p) := by
      intro l
      simp only [inSequence]
      split
      · constructor <;> simp
      · split <;> constructor <;> simp
    simp only [onConsecutive]
    by_cases hexp : l.crExpired now
    · simp only [if_pos hexp, reduceCtorEq, false_and, if_false]
      constructor <;> simp
    · simp only [if_neg hexp]
      split
      · exact hseq l
      · split <;> constructor <;> simp
  split
  · split
    · simp
    split
    · constructor <;> simp
    split
    · constructor <;> simp
    split
    · split <;> constructor <;> simp
    · constructor <;> simp
  · simp

theorem sameSettings_tickTx : SameSettings l (l.tickTx now) := by
  simp only [tickTx, giveUpTx]
  split <;> constructor <;> simp

theorem sameSettings_tick : SameSettings l (l.tick now) := by
  rw [tick_eq]
  refine (sameSettings_tickTx l now).trans ?_
  simp only [tickRx]
  split <;> constructor <;> simp

theorem sameSettings_poll : SameSettings l (l.poll now).2 := by
  simp only [poll, pollCf, giveUpTx]
  split
  · constructor <;> simp
  split
  · constructor <;> simp
  split
  · simp
  · constructor <;> simp
  · constructor <;> simp
  · dsimp only
    split <;> constructor <;> simp
  · split
    · simp
    split
    · constructor <;> simp
    split
    · split <;> constructor <;> simp
    · constructor <;> simp

theorem sameSettings_send (src : List UInt8) : SameSettings l (l.send src).2 := by
  simp only [send]
  split <;> constructor <;> simp

end Link

theorem sameSettings_step (l : Link) (e : Event) : SameSettings l (step l e).1 := by
  cases e with
  | frame now p => exact l.sameSettings_onFrame now p
  | poll now => exact l.sameSettings_poll now
  | tick now => exact l.sameSettings_tick now
  | take =>
    simp only [step, Link.take]
    split <;> constructor <;> simp
  | send src => exact l.sameSettings_send src
  | abortTx => constructor <;> simp [step, Link.abortTx]
  | abortRx => constructor <;> simp [step, Link.abortRx]

/-! ## The buffers -/

/-- The reception stays within its message, and before its end while it waits for more. -/
structure RxWithin (l : Link) : Prop where
  pos : l.rxPos ≤ l.rxLen
  len : l.rxLen ≤ maxPayload
  more : l.rx = .receiving → l.rxPos < l.rxLen

/-- The transmission stays within its message, which is of the kind its phase says. -/
structure TxWithin (l : Link) : Prop where
  pos : l.txPos ≤ l.txLen
  len : l.txLen ≤ maxPayload
  single : l.tx = .sendSf → l.txLen ≤ 7
  first : l.tx = .sendFf → 7 < l.txLen

section
variable {l l' : Link}

theorem RxWithin.of_same (h : RxWithin l) (hs : SameRx l l') : RxWithin l' where
  pos := by
    rw [hs.rxPos, hs.rxLen]
    exact h.pos
  len := by
    rw [hs.rxLen]
    exact h.len
  more := by
    rw [hs.rx, hs.rxPos, hs.rxLen]
    exact h.more

/-- The transmission stands as before, or has ended. -/
theorem TxWithin.of_same (h : TxWithin l) (hpos : l'.txPos = l.txPos) (hlen : l'.txLen = l.txLen)
    (htx : l'.tx = l.tx ∨ l'.tx = .idle ∨ l'.tx = .waitFc ∨ l'.tx = .sendCf) : TxWithin l' := by
  refine ⟨?_, ?_, ?_, ?_⟩
  · rw [hpos, hlen]
    exact h.pos
  · rw [hlen]
    exact h.len
  · intro hx
    rw [hlen]
    rcases htx with htx | htx | htx | htx
    · exact h.single (htx ▸ hx)
    all_goals simp [htx] at hx
  · intro hx
    rw [hlen]
    rcases htx with htx | htx | htx | htx
    · exact h.first (htx ▸ hx)
    all_goals simp [htx] at hx

theorem TxWithin.of_sameTx (h : TxWithin l) (hs : SameTx l l') : TxWithin l' :=
  h.of_same hs.txPos hs.txLen (.inl hs.tx)

/-- The positions of the reception stay, and none begins. -/
theorem RxWithin.of_pos (h : RxWithin l) (hpos : l'.rxPos = l.rxPos) (hlen : l'.rxLen = l.rxLen)
    (hrx : l'.rx = .receiving → l.rx = .receiving) : RxWithin l' where
  pos := by
    rw [hpos, hlen]
    exact h.pos
  len := by
    rw [hlen]
    exact h.len
  more hx := by
    rw [hpos, hlen]
    exact h.more (hrx hx)

theorem rxWithin_onFrame (h : RxWithin l) (now : UInt64) (p : Pdu) :
    RxWithin (l.onFrame now p) := by
  simp only [Link.onFrame]
  split
  · simp only [Link.onSingle]
    split
    · exact h.of_pos rfl rfl fun h => (by cases h)
    · exact h
  split
  · simp only [Link.onFirst]
    split
    · rename_i hn
      exact ⟨show 6 ≤ p.total by omega, hn.2, fun _ => show 6 < p.total by omega⟩
    · split
      · exact h.of_pos rfl rfl fun h => (by cases h)
      · exact h
  split
  · have hseq : RxWithin (l.inSequence now p) := by
      have hpos := h.pos
      have hnext : l.rxPos + min (l.rxLen - l.rxPos) 7 ≤ l.rxLen := by omega
      simp only [Link.inSequence]
      split
      · exact ⟨hnext, h.len, fun h => (by cases h)⟩
      · rename_i hmore
        split
        · exact ⟨hnext, h.len, fun _ => Nat.lt_of_not_le hmore⟩
        · exact ⟨hnext, h.len, fun _ => Nat.lt_of_not_le hmore⟩
    simp only [Link.onConsecutive]
    by_cases hexp : l.crExpired now
    · simp only [if_pos hexp, reduceCtorEq, false_and, if_false]
      exact h.of_pos rfl rfl fun h => (by cases h)
    · simp only [if_neg hexp]
      split
      · exact hseq
      · split
        · exact h.of_pos rfl rfl fun h => (by cases h)
        · exact h
  split
  · exact h.of_same (l.sameRx_onFlow now p)
  · exact h

theorem txWithin_onFrame (h : TxWithin l) (now : UInt64) (p : Pdu) :
    TxWithin (l.onFrame now p) := by
  simp only [Link.onFrame]
  split
  · exact h.of_sameTx (l.sameTx_onSingle p)
  split
  · exact h.of_sameTx (l.sameTx_onFirst p)
  split
  · exact h.of_sameTx (l.sameTx_onConsecutive now p)
  split
  · simp only [Link.onFlow, Link.giveUpTx]
    split
    · exact h
    split
    · exact h.of_same rfl rfl (by simp)
    split
    · exact h.of_same rfl rfl (by simp)
    split
    · split <;> exact h.of_same rfl rfl (by simp)
    · exact h.of_same rfl rfl (by simp)
  · exact h

theorem txWithin_poll (h : TxWithin l) (now : UInt64) : TxWithin (l.poll now).2 := by
  have hpos := h.pos
  simp only [Link.poll]
  split
  · exact h.of_same rfl rfl (.inl rfl)
  split
  · exact h.of_same rfl rfl (.inl rfl)
  split
  · exact h
  · exact h.of_same rfl rfl (by simp)
  · rename_i htx
    have hlen := h.first htx
    exact ⟨show 6 ≤ l.txLen by omega, h.len, by simp, by simp⟩
  · dsimp only
    split
    · exact h.of_same rfl rfl (by simp [Link.giveUpTx])
    · exact h
  · rename_i htx
    have hnext : l.txPos + min (l.txLen - l.txPos) 7 ≤ l.txLen := by omega
    simp only [Link.pollCf]
    split
    · exact h
    split
    · exact ⟨hnext, h.len, by simp, by simp⟩
    split
    · split
      · exact ⟨hnext, h.len, by simp, by simp⟩
      · exact ⟨hnext, h.len, by simp [htx], by simp [htx]⟩
    · exact ⟨hnext, h.len, by simp [htx], by simp [htx]⟩

theorem txWithin_send (h : TxWithin l) (src : List UInt8) : TxWithin (l.send src).2 := by
  simp only [Link.send]
  split
  · exact h
  · rename_i hn
    have hlen : src.length ≤ maxPayload := by omega
    refine ⟨Nat.zero_le _, hlen, ?_, ?_⟩
    · intro hx
      by_contra hlong
      simp [show ¬src.length ≤ 7 from hlong] at hx
    · intro hx
      by_contra hshort
      simp [show src.length ≤ 7 from Nat.le_of_not_lt hshort] at hx

theorem rxWithin_poll (h : RxWithin l) (now : UInt64) : RxWithin (l.poll now).2 := by
  simp only [Link.poll]
  split
  · exact h.of_pos rfl rfl id
  split
  · exact h.of_pos rfl rfl id
  split
  · exact h
  · exact h.of_pos rfl rfl id
  · exact h.of_pos rfl rfl id
  · dsimp only
    split
    · exact h.of_pos rfl rfl id
    · exact h
  · exact h.of_same (l.sameRx_pollCf now)

theorem rxWithin_tick (h : RxWithin l) (now : UInt64) : RxWithin (l.tick now) := by
  have hrx := h.of_same (l.sameRx_tickTx now)
  rw [Link.tick_eq, Link.tickRx]
  split
  · exact hrx.of_pos rfl rfl nofun
  · exact hrx

theorem txWithin_tick (h : TxWithin l) (now : UInt64) : TxWithin (l.tick now) := by
  have htx : TxWithin (l.tickTx now) := by
    simp only [Link.tickTx, Link.giveUpTx]
    split
    · exact h.of_same rfl rfl (by simp)
    · exact h
  exact htx.of_sameTx (Link.sameTx_tickRx _ now)

end

theorem within_step {l : Link} (hrx : RxWithin l) (htx : TxWithin l) (e : Event) :
    RxWithin (step l e).1 ∧ TxWithin (step l e).1 := by
  cases e with
  | frame now p => exact ⟨rxWithin_onFrame hrx now p, txWithin_onFrame htx now p⟩
  | poll now => exact ⟨rxWithin_poll hrx now, txWithin_poll htx now⟩
  | tick now => exact ⟨rxWithin_tick hrx now, txWithin_tick htx now⟩
  | take =>
    simp only [step, Link.take]
    split
    · exact ⟨hrx, htx⟩
    · exact ⟨hrx.of_pos rfl rfl id, htx.of_same rfl rfl (.inl rfl)⟩
  | send src => exact ⟨hrx.of_same (l.sameRx_send src), txWithin_send htx src⟩
  | abortTx => exact ⟨hrx.of_pos rfl rfl id, htx.of_same rfl rfl (by simp [step, Link.abortTx])⟩
  | abortRx => exact ⟨hrx.of_pos rfl rfl fun h => (by cases h), htx.of_same rfl rfl (.inl rfl)⟩

theorem within_fresh (bs stmin wftMax : UInt8) (nBsUs nCrUs : UInt64) :
    RxWithin (fresh bs stmin wftMax nBsUs nCrUs) ∧
      TxWithin (fresh bs stmin wftMax nBsUs nCrUs) := by
  refine ⟨⟨?_, ?_, ?_⟩, ⟨?_, ?_, ?_, ?_⟩⟩ <;> simp [fresh]

end BloblyEmb.Isotp
