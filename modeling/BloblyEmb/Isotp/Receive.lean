import BloblyEmb.Lib.Trace
import BloblyEmb.Isotp.Link

/-!
# What a link receives

A message that is taken is what one single frame carried, or one first frame and the consecutive
frames in sequence behind it. The buffer of a completed message is also that of the next reception:
this holds of a run in which no reception begins while a message waits to be taken.
-/
namespace BloblyEmb.Isotp
open Buffer

namespace Pdu

theorem length_bytes (p : Pdu) {at' n : ℕ} (h : at' + n ≤ 8) : (p.bytes at' n).length = n := by
  simp only [bytes, List.length_take, List.length_drop, List.length_map, List.length_finRange]
  omega

theorem take_bytes (p : Pdu) (at' : ℕ) {m n : ℕ} (h : m ≤ n) :
    (p.bytes at' n).take m = p.bytes at' m := by
  simp only [bytes, List.take_take, Nat.min_eq_left h]

/-! ## Frames -/

/-- A single frame with a message. -/
def Single (p : Pdu) : Prop := p.pci = 0x00 ∧ 0 < p.low.toNat ∧ p.low.toNat ≤ 7

/-- A first frame of a message that fits. -/
def Starts (p : Pdu) : Prop := p.pci = 0x10 ∧ 7 < p.total ∧ p.total ≤ maxPayload

/-- A first frame that is refused. -/
def Refused (p : Pdu) : Prop := p.pci = 0x10 ∧ (p.total = 0 ∨ maxPayload < p.total)

/-- A frame that a reception takes notice of. -/
def Counts (p : Pdu) : Prop := p.Single ∨ p.Starts ∨ p.Refused ∨ p.pci = 0x20

instance (p : Pdu) : Decidable p.Single := inferInstanceAs (Decidable (_ ∧ _))
instance (p : Pdu) : Decidable p.Starts := inferInstanceAs (Decidable (_ ∧ _))
instance (p : Pdu) : Decidable p.Refused := inferInstanceAs (Decidable (_ ∧ _))
instance (p : Pdu) : Decidable p.Counts := inferInstanceAs (Decidable (_ ∨ _))

end Pdu

/-- Consecutive frames, numbered from one on. -/
def Ordered (cfs : List Pdu) : Prop :=
  ∀ (i : ℕ) (p : Pdu), cfs[i]? = some p → p.pci = 0x20 ∧ p.low.toNat = (i + 1) % 16

/-- The bytes of a first frame and of consecutive frames. -/
def segments (ff : Pdu) (cfs : List Pdu) : List UInt8 :=
  ff.bytes 2 6 ++ cfs.flatMap fun p => p.bytes 1 7

/-- The frames received, in order, carry a message: one single frame, or a first frame and exactly
the consecutive frames that its length needs, with no other frame that counts between them. -/
inductive Carries (frames : List Pdu) : List UInt8 → Prop
  | single (p : Pdu) (received : p ∈ frames) (single : p.Single) :
    Carries frames (p.bytes 1 p.low.toNat)
  | segmented (before during after : List Pdu) (ff : Pdu) (cfs : List Pdu)
    (received : frames = before ++ during ++ after) (counted : during.filter Pdu.Counts = ff :: cfs)
    (starts : ff.Starts) (ordered : Ordered cfs) (enough : ff.total ≤ 6 + 7 * cfs.length)
    (last : 6 + 7 * cfs.length < ff.total + 7) :
    Carries frames ((segments ff cfs).take ff.total)

theorem Carries.append {frames : List Pdu} {msg : List UInt8} (h : Carries frames msg)
    (more : List Pdu) : Carries (frames ++ more) msg := by
  cases h with
  | single p received single => exact .single p (List.mem_append_left _ received) single
  | segmented before during after ff cfs received counted starts ordered enough last =>
    refine .segmented before during (after ++ more) ff cfs ?_ counted starts ordered enough last
    rw [received, List.append_assoc]

theorem Ordered.snoc {cfs : List Pdu} (h : Ordered cfs) {p : Pdu} (hp : p.pci = 0x20)
    (hl : p.low.toNat = (cfs.length + 1) % 16) : Ordered (cfs ++ [p]) := by
  intro i q hq
  by_cases hi : i < cfs.length
  · rw [List.getElem?_append_left hi] at hq
    exact h i q hq
  · rw [List.getElem?_append_right (by omega)] at hq
    obtain ⟨hz, rfl⟩ : i - cfs.length = 0 ∧ p = q := by
      cases hx : i - cfs.length with
      | zero =>
        rw [hx] at hq
        exact ⟨rfl, Option.some.inj hq⟩
      | succ k =>
        rw [hx] at hq
        cases hq
    rw [show i = cfs.length by omega]
    exact ⟨hp, hl⟩

theorem length_segments (ff : Pdu) (cfs : List Pdu) :
    (segments ff cfs).length = 6 + 7 * cfs.length := by
  have hcfs : (cfs.flatMap fun p => p.bytes 1 7).length = 7 * cfs.length := by
    induction cfs with
    | nil => rfl
    | cons p cfs ih =>
      rw [List.flatMap_cons, List.length_append, ih, p.length_bytes (by omega), List.length_cons]
      omega
  rw [segments, List.length_append, ff.length_bytes (by omega), hcfs]

theorem segments_snoc (ff : Pdu) (cfs : List Pdu) (p : Pdu) :
    segments ff (cfs ++ [p]) = segments ff cfs ++ p.bytes 1 7 := by
  simp [segments, List.append_assoc]

/-! ## Receiving -/

/-- A reception is under way: its frames are the last ones received that count, and their bytes are
in the buffer. -/
def Under (l : Link) (frames : List Pdu) : Prop :=
  ∃ before during ff cfs, frames = before ++ during ∧ during.filter Pdu.Counts = ff :: cfs ∧
    ff.Starts ∧ Ordered cfs ∧ l.rxLen = ff.total ∧ l.rxPos = 6 + 7 * cfs.length ∧
    l.rxPos < l.rxLen ∧ l.rxSn.toNat = (cfs.length + 1) % 16 ∧
    prefixOf l.rxBuf l.rxPos = segments ff cfs

/-- What a link keeps of the frames it received. -/
structure Received (l : Link) (frames : List Pdu) : Prop where
  waits : l.ready = true → l.rx = .idle ∧ Carries frames (prefixOf l.rxBuf l.readyLen)
  under : l.rx = .receiving → Under l frames

namespace Received
variable {l l' : Link} {frames : List Pdu} {now : UInt64} {p : Pdu}

/-- Only other fields change, or the reception ends, or the message is given up. -/
theorem of_same (h : Received l frames) (hb : l'.rxBuf = l.rxBuf) (hlen : l'.rxLen = l.rxLen)
    (hpos : l'.rxPos = l.rxPos) (hsn : l'.rxSn = l.rxSn) (hr : l'.readyLen = l.readyLen)
    (hrx : l'.rx = l.rx ∨ l'.rx = .idle) (hready : l'.ready = true → l.ready = true) :
    Received l' frames where
  waits hx := by
    obtain ⟨hi, hc⟩ := h.waits (hready hx)
    rw [hb, hr]
    refine ⟨?_, hc⟩
    rcases hrx with hrx | hrx
    · exact hrx.trans hi
    · exact hrx
  under hx := by
    have hu : l.rx = .receiving := by
      rcases hrx with hrx | hrx
      · exact hrx ▸ hx
      · rw [hrx] at hx
        cases hx
    obtain ⟨before, during, ff, cfs, h₁, h₂, h₃, h₄, h₅, h₆, h₇, h₈, h₉⟩ := h.under hu
    exact ⟨before, during, ff, cfs, h₁, h₂, h₃, h₄, hlen.trans h₅, hpos.trans h₆,
      by rw [hlen, hpos]; exact h₇, by rw [hsn]; exact h₈, by rw [hb, hpos]; exact h₉⟩

/-- A frame that no reception takes notice of. -/
theorem ignored (h : Received l frames) (hp : ¬p.Counts) : Received l (frames ++ [p]) where
  waits hx := ⟨(h.waits hx).1, (h.waits hx).2.append [p]⟩
  under hx := by
    obtain ⟨before, during, ff, cfs, h₁, h₂, hrest⟩ := h.under hx
    refine ⟨before, during ++ [p], ff, cfs, by rw [h₁, List.append_assoc], ?_, hrest⟩
    rw [List.filter_append, h₂]
    simp [hp]

/-- A frame that leaves the link without a reception, and the message that waits as it was. -/
theorem ended (h : Received l frames) (hb : l'.rxBuf = l.rxBuf) (hr : l'.readyLen = l.readyLen)
    (hrx : l'.rx = .idle) (hready : l'.ready = l.ready) : Received l' (frames ++ [p]) where
  waits hx := by
    obtain ⟨-, hc⟩ := h.waits (hready ▸ hx)
    rw [hb, hr]
    exact ⟨hrx, hc.append [p]⟩
  under hx := by
    rw [hrx] at hx
    cases hx

theorem onSingle (h : Received l frames) (hp : p.pci = 0x00) :
    Received (l.onSingle p) (frames ++ [p]) := by
  simp only [Link.onSingle]
  split
  · rename_i hn
    refine ⟨fun _ => ⟨rfl, ?_⟩, fun hx => by cases hx⟩
    dsimp only
    rw [prefixOf_store_zero l.rxBuf (p.length_bytes (by omega))]
    exact .single p (by simp) ⟨hp, hn⟩
  · rename_i hn
    apply h.ignored
    rintro (hs | hs | hs | hs)
    · exact hn hs.2
    · exact absurd (hp.symm.trans hs.1) (by decide)
    · exact absurd (hp.symm.trans hs.1) (by decide)
    · exact absurd (hp.symm.trans hs) (by decide)

theorem onFirst (h : Received l frames) (hp : p.pci = 0x10) (hfree : p.Starts → l.ready = false) :
    Received (l.onFirst p) (frames ++ [p]) := by
  simp only [Link.onFirst]
  split
  · rename_i hn
    have hs : p.Starts := ⟨hp, hn⟩
    refine ⟨fun hx => ?_, fun _ => ⟨frames, [p], p, [], rfl, ?_, hs, ?_, rfl, rfl, ?_, rfl, ?_⟩⟩
    · rw [show l.ready = true from hx] at hfree
      exact absurd (hfree hs) (by decide)
    · rw [List.filter_cons_of_pos (by simp [Pdu.Counts, hs])]
      rfl
    · intro i q hq
      cases hq
    · exact show 6 < p.total by omega
    · dsimp only
      rw [prefixOf_store_zero l.rxBuf (p.length_bytes (by omega))]
      simp [segments]
  · rename_i hn
    split
    · exact h.ended rfl rfl rfl rfl
    · rename_i hno
      apply h.ignored
      rintro (hs | hs | hs | hs)
      · exact absurd (hp.symm.trans hs.1) (by decide)
      · exact hn hs.2
      · exact hno hs.2
      · exact absurd (hp.symm.trans hs) (by decide)

/-- The sequence number goes around after fifteen. -/
theorem next_sn {sn : UInt8} {k : ℕ} (h : sn.toNat = k % 16) :
    ((sn + 1) &&& 0x0F).toNat = (k + 1) % 16 := by
  have hn : ∀ s : UInt8, ((s + 1) &&& 0x0F).toNat = (s.toNat + 1) % 16 := by
    intro s
    have h₁ : ((s + 1) &&& 0x0F).toNat = (s + 1).toNat % 16 := by
      rw [UInt8.toNat_and]
      exact Nat.and_two_pow_sub_one_eq_mod _ 4
    rw [h₁, UInt8.toNat_add]
    simp only [UInt8.toNat_one]
    omega
  rw [hn, h]
  omega

theorem same_sn {sn low : UInt8} (h : low = sn &&& 0x0F) (hs : sn.toNat < 16) :
    low.toNat = sn.toNat := by
  rw [h, UInt8.toNat_and]
  exact (Nat.and_two_pow_sub_one_eq_mod _ 4).trans (Nat.mod_eq_of_lt hs)

theorem inSequence (h : Received l frames) (hrx : l.rx = .receiving) (hp : p.pci = 0x20)
    (hsn : p.low = l.rxSn &&& 0x0F) : Received (l.inSequence now p) (frames ++ [p]) := by
  obtain ⟨before, during, ff, cfs, h₁, h₂, h₃, h₄, h₅, h₆, h₇, h₈, h₉⟩ := h.under hrx
  have hnot : l.ready = false := by
    cases hx : l.ready with
    | false => rfl
    | true =>
      have := (h.waits hx).1
      rw [hrx] at this
      cases this
  have hcount : (during ++ [p]).filter Pdu.Counts = ff :: (cfs ++ [p]) := by
    rw [List.filter_append, h₂, List.filter_cons_of_pos (by simp [Pdu.Counts, hp])]
    rfl
  have hord : Ordered (cfs ++ [p]) :=
    h₄.snoc hp ((same_sn hsn (by omega)).trans h₈)
  have hbytes : (p.bytes 1 (min (l.rxLen - l.rxPos) 7)).length = min (l.rxLen - l.rxPos) 7 :=
    p.length_bytes (by omega)
  have hbuf : prefixOf (store l.rxBuf l.rxPos (p.bytes 1 (min (l.rxLen - l.rxPos) 7)))
      (l.rxPos + min (l.rxLen - l.rxPos) 7) =
        segments ff cfs ++ p.bytes 1 (min (l.rxLen - l.rxPos) 7) := by
    have := prefixOf_store l.rxBuf l.rxPos (p.bytes 1 (min (l.rxLen - l.rxPos) 7))
    rwa [hbytes, h₉] at this
  simp only [Link.inSequence]
  split
  · -- the message is complete
    rename_i hfull
    have hmin : min (l.rxLen - l.rxPos) 7 = l.rxLen - l.rxPos := by omega
    rw [hmin, Nat.add_sub_cancel' (Nat.le_of_lt h₇), h₅, ← h₅] at hbuf
    refine ⟨fun _ => ⟨rfl, ?_⟩, fun hx => by cases hx⟩
    dsimp only
    rw [hmin, hbuf]
    have hmsg : segments ff cfs ++ p.bytes 1 (l.rxLen - l.rxPos) =
        (segments ff (cfs ++ [p])).take ff.total := by
      rw [segments_snoc, List.take_append, length_segments, ← h₆, ← h₅,
        List.take_of_length_le (by rw [length_segments, ← h₆]; omega),
        p.take_bytes 1 (by omega)]
    rw [hmsg]
    refine .segmented before (during ++ [p]) [] ff (cfs ++ [p]) ?_ hcount h₃ hord ?_ ?_
    · rw [h₁]
      simp
    · rw [List.length_append, List.length_singleton]
      omega
    · rw [List.length_append, List.length_singleton]
      omega
  · rename_i hmore
    have hmin : min (l.rxLen - l.rxPos) 7 = 7 := by omega
    rw [hmin] at hbuf
    have hunder : ∀ x : Link, x.rxLen = l.rxLen → x.rxPos = l.rxPos + 7 →
        x.rxSn = (l.rxSn + 1) &&& 0x0F → x.rxBuf = store l.rxBuf l.rxPos (p.bytes 1 7) →
        Under x (frames ++ [p]) := by
      intro x e₁ e₂ e₃ e₄
      refine ⟨before, during ++ [p], ff, cfs ++ [p], by rw [h₁, List.append_assoc], hcount, h₃, hord,
        e₁.trans h₅, ?_, ?_, ?_, ?_⟩
      · rw [e₂, h₆, List.length_append, List.length_singleton]
        omega
      · rw [e₁, e₂]
        omega
      · rw [e₃, next_sn h₈, List.length_append, List.length_singleton]
      · rw [e₄, e₂, hbuf, segments_snoc]
    split
    · refine ⟨fun hx => ?_, fun _ => hunder _ rfl ?_ rfl ?_⟩
      · rw [show l.ready = true from hx] at hnot
        cases hnot
      · dsimp only
        rw [hmin]
      · dsimp only
        rw [hmin]
    · refine ⟨fun hx => ?_, fun _ => hunder _ rfl ?_ rfl ?_⟩
      · rw [show l.ready = true from hx] at hnot
        cases hnot
      · dsimp only
        rw [hmin]
      · dsimp only
        rw [hmin]

theorem onConsecutive (h : Received l frames) (hp : p.pci = 0x20) :
    Received (l.onConsecutive now p) (frames ++ [p]) := by
  simp only [Link.onConsecutive]
  by_cases hexp : l.crExpired now
  · simp only [if_pos hexp, reduceCtorEq, false_and, if_false]
    exact h.ended rfl rfl rfl rfl
  · simp only [if_neg hexp]
    by_cases hrx : l.rx = .receiving
    · by_cases hsn : p.low = l.rxSn &&& 0x0F
      · rw [if_pos ⟨hrx, hsn⟩]
        exact h.inSequence hrx hp hsn
      · rw [if_neg (fun hx => hsn hx.2), if_pos hrx]
        exact h.ended rfl rfl rfl rfl
    · rw [if_neg (fun hx => hrx hx.1), if_neg hrx]
      refine h.ended rfl rfl ?_ rfl
      cases hx : l.rx with
      | idle => rfl
      | receiving => exact absurd hx hrx

theorem onFlow (h : Received l frames) (hp : p.pci = 0x30) :
    Received (l.onFlow now p) (frames ++ [p]) := by
  have hno : ¬p.Counts := by
    simp [Pdu.Counts, Pdu.Single, Pdu.Starts, Pdu.Refused, hp]
  have hi := h.ignored hno
  simp only [Link.onFlow]
  split
  · exact hi
  split
  · exact hi.of_same rfl rfl rfl rfl rfl (.inl rfl) id
  split
  · exact hi.of_same rfl rfl rfl rfl rfl (.inl rfl) id
  split
  · split <;> exact hi.of_same rfl rfl rfl rfl rfl (.inl rfl) id
  · exact hi.of_same rfl rfl rfl rfl rfl (.inl rfl) id

/-- A received frame, where no reception begins over a message that waits. -/
theorem onFrame (h : Received l frames) (hfree : p.Starts → l.ready = false) :
    Received (l.onFrame now p) (frames ++ [p]) := by
  simp only [Link.onFrame]
  split
  · exact h.onSingle ‹_›
  split
  · exact h.onFirst ‹_› hfree
  split
  · exact h.onConsecutive ‹_›
  split
  · exact h.onFlow ‹_›
  · apply h.ignored
    simp [Pdu.Counts, Pdu.Single, Pdu.Starts, Pdu.Refused, *]

theorem tick (h : Received l frames) : Received (l.tick now) frames := by
  simp only [Link.tick]
  have hg : Received (if l.bsExpired now then l.giveUpTx else l) frames := by
    split
    · exact h.of_same rfl rfl rfl rfl rfl (.inl rfl) id
    · exact h
  revert hg
  generalize (if l.bsExpired now then l.giveUpTx else l) = x
  intro hg
  split
  · exact hg.of_same rfl rfl rfl rfl rfl (.inr rfl) id
  · exact hg

theorem poll (h : Received l frames) : Received (l.poll now).2 frames := by
  simp only [Link.poll]
  split
  · exact h.of_same rfl rfl rfl rfl rfl (.inl rfl) id
  split
  · exact h.of_same rfl rfl rfl rfl rfl (.inl rfl) id
  split
  · exact h
  · exact h.of_same rfl rfl rfl rfl rfl (.inl rfl) id
  · exact h.of_same rfl rfl rfl rfl rfl (.inl rfl) id
  · dsimp only
    split
    · exact h.of_same rfl rfl rfl rfl rfl (.inl rfl) id
    · exact h
  · simp only [Link.pollCf]
    split
    · exact h
    split
    · exact h.of_same rfl rfl rfl rfl rfl (.inl rfl) id
    split
    · split <;> exact h.of_same rfl rfl rfl rfl rfl (.inl rfl) id
    · exact h.of_same rfl rfl rfl rfl rfl (.inl rfl) id

theorem send (h : Received l frames) (src : List UInt8) : Received (l.send src).2 frames := by
  simp only [Link.send]
  split
  · exact h
  · exact h.of_same rfl rfl rfl rfl rfl (.inl rfl) id

/-- What a `take` returns is carried by the frames received. -/
theorem take (h : Received l frames) :
    Received l.take.2 frames ∧ ∀ msg, l.take.1 = some msg → Carries frames msg := by
  simp only [Link.take]
  by_cases hr : l.ready = true
  · rw [if_neg (fun hx => hx hr)]
    refine ⟨h.of_same rfl rfl rfl rfl rfl (.inl rfl) (fun hx => by cases hx), ?_⟩
    rintro msg ⟨⟩
    exact (h.waits hr).2
  · rw [if_pos hr]
    refine ⟨h, ?_⟩
    intro msg hx
    cases hx

end Received

/-! ## Runs of a link -/

/-- What the owner of a link does with it. -/
inductive Event where
  | frame (now : UInt64) (p : Pdu)
  | poll (now : UInt64)
  | tick (now : UInt64)
  | take
  | send (src : List UInt8)
  | abortTx
  | abortRx

/-- One call, and the message that a `take` returns. -/
def step (l : Link) : Event → Link × Option (List UInt8)
  | .frame now p => (l.onFrame now p, none)
  | .poll now => ((l.poll now).2, none)
  | .tick now => (l.tick now, none)
  | .take => (l.take.2, l.take.1)
  | .send src => ((l.send src).2, none)
  | .abortTx => (l.abortTx, none)
  | .abortRx => (l.abortRx, none)

/-- A link as its owner sets it up. -/
def fresh (bs stmin wftMax : UInt8) (nBsUs nCrUs : UInt64) : Link where
  bs := bs
  stmin := stmin
  nBsUs := nBsUs
  wftMax := wftMax
  txAborts := 0
  progress := 0
  nCrUs := nCrUs
  rx := .idle
  rxBuf := fun _ => 0
  rxLen := 0
  rxPos := 0
  rxSn := 0
  rxCount := 0
  fcSend := false
  fcOvflw := false
  ready := false
  readyLen := 0
  tx := .idle
  txBuf := fun _ => 0
  txLen := 0
  txPos := 0
  txSn := 0
  peerBs := 0
  peerStmin := 0
  blockLeft := 0
  nextUs := 0
  fcDeadline := 0
  rxDeadline := 0
  wftCount := 0

/-- The frame that a call hands the link. -/
def Event.received? : Event → Option Pdu
  | .frame _ p => some p
  | _ => none

/-- The frames received in a run, in order. -/
def received (hist : List (Trace.Entry Link Event (Option (List UInt8)))) : List Pdu :=
  hist.filterMap fun x => x.event.received?

/-- No reception begins while a completed message waits to be taken. -/
def Spares (x : Trace.Entry Link Event (Option (List UInt8))) : Prop :=
  ∀ now p, x.event = .frame now p → p.Starts → x.before.ready = false

theorem received_snoc (hist : List (Trace.Entry Link Event (Option (List UInt8)))) (l : Link)
    (e : Event) :
    received (hist ++ [Trace.entry step l e]) = received hist ++ e.received?.toList := by
  cases e <;> simp [received, Event.received?]

theorem received_fresh (bs stmin wftMax : UInt8) (nBsUs nCrUs : UInt64) :
    Received (fresh bs stmin wftMax nBsUs nCrUs) [] where
  waits hx := by cases hx
  under hx := by cases hx

theorem Received.step {l : Link} {frames : List Pdu} (h : Received l frames) (e : Event)
    (hspares : Spares (Trace.entry step l e)) :
    Received (step l e).1 (frames ++ e.received?.toList) ∧
      ∀ msg, (Isotp.step l e).2 = some msg → Carries frames msg := by
  have quiet : ∀ msg : List UInt8, none = some msg → Carries frames msg := by
    intro msg hx
    cases hx
  cases e with
  | frame now p => exact ⟨h.onFrame (hspares now p rfl), quiet⟩
  | poll now => exact ⟨by simpa [Event.received?, Isotp.step] using h.poll, quiet⟩
  | tick now => exact ⟨by simpa [Event.received?, Isotp.step] using h.tick, quiet⟩
  | take => exact ⟨by simpa [Event.received?, Isotp.step] using h.take.1, h.take.2⟩
  | send src => exact ⟨by simpa [Event.received?, Isotp.step] using h.send src, quiet⟩
  | abortTx =>
    refine ⟨?_, quiet⟩
    simp only [Event.received?, Option.toList_none, List.append_nil]
    exact h.of_same rfl rfl rfl rfl rfl (.inl rfl) id
  | abortRx =>
    refine ⟨?_, quiet⟩
    simp only [Event.received?, Option.toList_none, List.append_nil]
    exact h.of_same rfl rfl rfl rfl rfl (.inr rfl) (fun hx => by cases hx)

/-- Every message taken is one that the frames received so far carry. -/
def TakesWhole (hist : List (Trace.Entry Link Event (Option (List UInt8)))) : Prop :=
  Trace.Along (fun hist x => ∀ msg, x.label = some msg → Carries (received hist) msg) hist

/-- Every message taken is what one single frame carried, or one first frame and the consecutive
frames in sequence behind it, as long as no first frame of a length that fits arrives while a
completed message waits to be taken. -/
theorem takesWhole_of_spares (bs stmin wftMax : UInt8) (nBsUs nCrUs : UInt64) (es : List Event)
    (hspares : ∀ x ∈ Trace.history step (fresh bs stmin wftMax nBsUs nCrUs) es, Spares x) :
    TakesWhole (Trace.history step (fresh bs stmin wftMax nBsUs nCrUs) es) := by
  have hall : Trace.Along (fun _ x => Spares x)
      (Trace.history step (fresh bs stmin wftMax nBsUs nCrUs) es) := by
    intro h₁ x h₂ hx
    exact hspares x (by rw [hx]; simp)
  refine (Trace.run_along (I := fun l hist => Received l (received hist))
    (received_fresh bs stmin wftMax nBsUs nCrUs) ?_ es hall).2
  intro es e h hc
  obtain ⟨hnext, hmsg⟩ := h.step e hc
  rw [received_snoc]
  exact ⟨hnext, hmsg⟩

/-- A request of three bytes, and the first frame of one of twenty. -/
def smallRequest : Pdu := pdu [0x03, 0x22, 0xF1, 0x90]
def bigRequest : Pdu := pdu [0x10, 0x14, 0x36, 0x01, 0xAA, 0xBB, 0xCC, 0xDD]

/-- A request is taken before the next begins. -/
def inTurn : List Event :=
  [.frame 0 smallRequest, .take, .frame 10 bigRequest, .poll 20, .take]

theorem takesWhole_of_spares_inTurn :
    TakesWhole (Trace.history step (fresh 0 0 16 1000000 1000000) inTurn) := by
  apply takesWhole_of_spares
  intro x hx now p hp hs
  simp only [Trace.history, Trace.run, inTurn, List.foldl_cons, List.foldl_nil, List.nil_append,
    List.cons_append, List.mem_cons, List.not_mem_nil, or_false] at hx
  rcases hx with rfl | rfl | rfl | rfl | rfl
  · rfl
  · cases hp
  · rfl
  · cases hp
  · cases hp

/-- What a message carried is as long as its frames say. -/
theorem Carries.single_of_short {frames : List Pdu} {msg : List UInt8} (h : Carries frames msg)
    (hshort : msg.length ≤ 7) : ∃ p ∈ frames, p.Single ∧ msg = p.bytes 1 p.low.toNat := by
  cases h with
  | single p received single => exact ⟨p, received, single, rfl⟩
  | segmented before during after ff cfs received counted starts ordered enough last =>
    rw [List.length_take, length_segments, Nat.min_eq_left enough] at hshort
    have := starts.2.1
    omega

/-- A first frame overwrites the request that waits: the first bytes of the later message are taken
under the length of the earlier one. -/
theorem takes_later_bytes :
    ¬∀ (bs stmin wftMax : UInt8) (nBsUs nCrUs : UInt64) (es : List Event),
      TakesWhole (Trace.history step (fresh bs stmin wftMax nBsUs nCrUs) es) := by
  intro h
  have htake := h 0 0 16 1000000 1000000 [.frame 0 smallRequest, .frame 10 bigRequest, .take]
  have hc := htake [_, _] _ [] rfl [0x36, 0x01, 0xAA] (by decide)
  obtain ⟨p, hp, hs, hmsg⟩ := hc.single_of_short (by decide)
  simp only [received, List.filterMap_cons, List.filterMap_nil, Event.received?, Trace.entry,
    List.mem_cons, List.not_mem_nil, or_false] at hp
  rcases hp with rfl | rfl
  · revert hmsg
    decide
  · revert hs
    decide

end BloblyEmb.Isotp
