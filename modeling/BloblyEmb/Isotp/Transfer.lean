import BloblyEmb.Isotp.Receive

/-!
# From end to end

Two links over lossless channels, one sends and the other receives. A message is delivered whole
whatever its length, the block size and the separation time, in every order of frames, polls and
ticks that no timeout ends: each stage of the transfer says what either link holds and what is on
the way between them.
-/
namespace BloblyEmb.Isotp
open Buffer

/-! ## The frames of a message -/

/-- The number that a sequence number counts. -/
def sn (k : ℕ) : UInt8 := UInt8.ofNat (k % 16)

def singleFrame (m : List UInt8) : Pdu := pdu (m.length.toUInt8 :: m)

def firstFrame (m : List UInt8) : Pdu :=
  pdu ((0x10 ||| ((m.length / 256).toUInt8 &&& 0x0F)) :: m.length.toUInt8 :: m.take 6)

/-- The consecutive frame of the bytes from `6 + 7 * k` on. -/
def nextFrames (m : List UInt8) (k : ℕ) : Pdu :=
  pdu ((0x20 ||| sn (k + 1)) :: (m.drop (6 + 7 * k)).take 7)

/-- The consecutive frames from `b` to `a`. -/
def framesFrom (m : List UInt8) (b a : ℕ) : List Pdu := (List.range' b (a - b)).map (nextFrames m)

theorem toNat_sn (k : ℕ) : (sn k).toNat = k % 16 := by
  simp only [sn, UInt8.toNat_ofNat']
  omega

theorem sn_eq {x : UInt8} {k : ℕ} (h : x.toNat = k % 16) : x = sn k :=
  UInt8.toNat_inj.mp (h.trans (toNat_sn k).symm)

theorem sn_and (k : ℕ) : sn k &&& 0x0F = sn k := by
  apply UInt8.toNat_inj.mp
  rw [UInt8.toNat_and, toNat_sn]
  exact (Nat.and_two_pow_sub_one_eq_mod _ 4).trans (Nat.mod_eq_of_lt (Nat.mod_lt _ (by decide)))

theorem next_sn_eq (k : ℕ) : (sn k + 1) &&& 0x0F = sn (k + 1) :=
  sn_eq (Received.next_sn (toNat_sn k))

theorem bytes_pdu (l : List UInt8) {at' n : ℕ} (hfit : at' + n ≤ 8) (hlen : at' + n ≤ l.length) :
    (pdu l).bytes at' n = (l.drop at').take n := by
  apply List.ext_getElem
  · rw [Pdu.length_bytes _ hfit, List.length_take, List.length_drop]
    omega
  · intro i h₁ h₂
    rw [Pdu.length_bytes _ hfit] at h₁
    simp [Pdu.bytes, pdu, List.getD_eq_getElem?_getD,
      List.getElem?_eq_getElem (show at' + i < l.length by omega)]

theorem pci_next (m : List UInt8) (k : ℕ) : (nextFrames m k).pci = 0x20 := by
  have hall : ∀ i : Fin 16, (0x20 ||| UInt8.ofNat i) &&& 0xF0 = (0x20 : UInt8) := by decide
  exact hall ⟨(k + 1) % 16, Nat.mod_lt _ (by decide)⟩

theorem low_next (m : List UInt8) (k : ℕ) : (nextFrames m k).low = sn (k + 1) := by
  have hall : ∀ i : Fin 16, (0x20 ||| UInt8.ofNat i) &&& 0x0F = UInt8.ofNat i := by decide
  exact hall ⟨(k + 1) % 16, Nat.mod_lt _ (by decide)⟩

theorem bytes_next (m : List UInt8) {k n : ℕ} (hn : n ≤ 7) (hlen : 6 + 7 * k + n ≤ m.length) :
    (nextFrames m k).bytes 1 n = (m.drop (6 + 7 * k)).take n := by
  rw [nextFrames, bytes_pdu _ (by omega)]
  · rw [List.drop_succ_cons, List.drop_zero, List.take_take, Nat.min_eq_left hn]
  · simp only [List.length_cons, List.length_take, List.length_drop]
    omega

theorem pci_first {m : List UInt8} (hm : m.length ≤ maxPayload) : (firstFrame m).pci = 0x10 := by
  have hall : ∀ i : Fin 3, (0x10 ||| (UInt8.ofNat i &&& 0x0F)) &&& 0xF0 = (0x10 : UInt8) := by decide
  exact hall ⟨m.length / 256, by simp only [maxPayload] at hm; omega⟩

theorem total_first {m : List UInt8} (hm : m.length ≤ maxPayload) :
    (firstFrame m).total = m.length := by
  have hall : ∀ i : Fin 3, ((0x10 ||| (UInt8.ofNat i &&& 0x0F)) &&& 0x0F).toNat = i := by decide
  have hlow : (firstFrame m).low.toNat = m.length / 256 :=
    hall ⟨m.length / 256, by simp only [maxPayload] at hm; omega⟩
  have hbyte : (firstFrame m 1).toNat = m.length % 256 := UInt8.toNat_ofNat' ..
  rw [Pdu.total, hlow, hbyte]
  omega

theorem bytes_first {m : List UInt8} (hm : 7 < m.length) : (firstFrame m).bytes 2 6 = m.take 6 := by
  rw [firstFrame, bytes_pdu _ (by omega)]
  · simp [List.take_take]
  · simp only [List.length_cons, List.length_take]
    omega

theorem pci_single {m : List UInt8} (hm : m.length ≤ 7) :
    (singleFrame m).pci = 0x00 ∧ (singleFrame m).low.toNat = m.length := by
  have hall : ∀ i : Fin 8, UInt8.ofNat i &&& 0xF0 = 0x00 ∧ (UInt8.ofNat i &&& 0x0F).toNat = i := by
    decide
  exact hall ⟨m.length, by omega⟩

theorem bytes_single {m : List UInt8} (hm : m.length ≤ 7) :
    (singleFrame m).bytes 1 m.length = m := by
  rw [singleFrame, bytes_pdu _ (by omega)]
  · simp
  · simp only [List.length_cons]
    omega

theorem framesFrom_snoc (m : List UInt8) {b a : ℕ} (h : b ≤ a) :
    framesFrom m b (a + 1) = framesFrom m b a ++ [nextFrames m a] := by
  have hlen : a + 1 - b = (a - b) + 1 := by omega
  have hlast : b + (a - b) = a := by omega
  simp only [framesFrom, hlen, List.range'_concat, Nat.one_mul, List.map_append, List.map_cons,
    List.map_nil, hlast]

theorem framesFrom_cons (m : List UInt8) {b a : ℕ} (h : b < a) :
    framesFrom m b a = nextFrames m b :: framesFrom m (b + 1) a := by
  have hlen : a - b = (a - (b + 1)) + 1 := by omega
  simp only [framesFrom, hlen, List.range'_succ, List.map_cons]

theorem framesFrom_self (m : List UInt8) (b : ℕ) : framesFrom m b b = [] := by
  simp [framesFrom]

/-! ## The sending link -/

/-- The link holds the message to send. -/
structure Holds (m : List UInt8) (l : Link) : Prop where
  length : l.txLen = m.length
  bytes : prefixOf l.txBuf m.length = m

/-- The link has sent the first frame and `a` consecutive frames, and more are to come. -/
structure Sends (m : List UInt8) (l : Link) (a : ℕ) : Prop where
  holds : Holds m l
  pos : l.txPos = 6 + 7 * a
  sn : l.txSn = sn (a + 1)
  more : 6 + 7 * a < m.length

/-- The sending link has nothing to do with a reception. -/
structure SendsOnly (l : Link) : Prop where
  rx : l.rx = .idle
  noFlow : l.fcSend = false
  noRefusal : l.fcOvflw = false

theorem length_of_bytes {buf : ℕ → UInt8} {m : List UInt8} {n : ℕ} (hn : n ≤ m.length)
    (h : prefixOf buf m.length = m) : prefixOf buf n = m.take n := by
  have hsplit := prefixOf_add buf n (m.length - n)
  rw [Nat.add_sub_cancel' hn, h] at hsplit
  rw [hsplit, List.take_left' (length_prefixOf ..)]

theorem slice_of_bytes {buf : ℕ → UInt8} {m : List UInt8} {at' n : ℕ} (hn : at' + n ≤ m.length)
    (h : prefixOf buf m.length = m) :
    ((List.range n).map fun i => buf (at' + i)) = (m.drop at').take n := by
  have hsplit := prefixOf_add buf at' n
  rw [length_of_bytes hn h, length_of_bytes (by omega) h] at hsplit
  have hdrop := congrArg (List.drop at') hsplit
  rw [List.drop_left' (by rw [List.length_take]; omega), List.drop_take] at hdrop
  rw [Nat.add_sub_cancel_left] at hdrop
  exact hdrop.symm

variable {m : List UInt8} {l : Link} {now : UInt64} {a b : ℕ}

theorem tick_sender (h : SendsOnly l) (hbs : ¬l.bsExpired now) : l.tick now = l := by
  have hcr : ¬l.crExpired now := by
    simp [Link.crExpired, h.rx]
  simp only [Link.tick, if_neg hbs, if_neg hcr]

theorem poll_single (h : SendsOnly l) (hh : Holds m l) (htx : l.tx = .sendSf) :
    l.poll now = (some (singleFrame m), { l with tx := .idle }) := by
  simp only [Link.poll, h.noFlow, h.noRefusal, htx, Bool.false_eq_true, if_false, hh.length, hh.bytes]
  rfl

theorem poll_first (now : UInt64) (h : SendsOnly l) (hh : Holds m l) (htx : l.tx = .sendFf)
    (hm : 7 < m.length) :
    (l.poll now).1 = some (firstFrame m) ∧ (l.poll now).2.tx = .waitFc ∧
      SendsOnly (l.poll now).2 ∧ Sends m (l.poll now).2 0 := by
  have hpoll : l.poll now = (some (firstFrame m),
      { l with txPos := 6, txSn := 1, tx := .waitFc, fcDeadline := now + l.nBsUs }) := by
    simp only [Link.poll, h.noFlow, h.noRefusal, htx, Bool.false_eq_true, if_false, hh.length,
      length_of_bytes (show 6 ≤ m.length by omega) hh.bytes]
    rfl
  rw [hpoll]
  exact ⟨rfl, rfl, ⟨h.rx, h.noFlow, h.noRefusal⟩,
    ⟨⟨hh.length, hh.bytes⟩, rfl, rfl, by omega⟩⟩

/-- A link polls nothing while it waits for a flow control, or sends no message. -/
theorem poll_waiting (h : SendsOnly l) (htx : l.tx = .idle ∨ l.tx = .waitFc)
    (hbs : ¬l.bsExpired now) : l.poll now = (none, l) := by
  rcases htx with htx | htx
  · simp [Link.poll, h.noFlow, h.noRefusal, htx]
  · have hwait : ¬(l.nBsUs ≠ 0 ∧ l.fcDeadline ≤ now) := by
      intro hx
      exact hbs ⟨hx.1, .inl htx, hx.2⟩
    simp only [Link.poll, h.noFlow, h.noRefusal, htx, Bool.false_eq_true, if_false, if_neg hwait]

/-- The flow control that the receiving link sends lets the next block go. -/
theorem onFlow_clear (h : SendsOnly l) (hs : Sends m l a) (htx : l.tx = .waitFc)
    (hbs : ¬l.bsExpired now) (bs stmin : UInt8) :
    (l.onFrame now (pdu [0x30, bs, stmin])).tx = .sendCf ∧
      (l.onFrame now (pdu [0x30, bs, stmin])).peerBs = bs ∧
      (l.onFrame now (pdu [0x30, bs, stmin])).blockLeft = bs ∧
      SendsOnly (l.onFrame now (pdu [0x30, bs, stmin])) ∧
      Sends m (l.onFrame now (pdu [0x30, bs, stmin])) a := by
  have hpci : (pdu [0x30, bs, stmin]).pci = 0x30 := by
    show (0x30 : UInt8) &&& 0xF0 = 0x30
    decide
  have hlow : (pdu [0x30, bs, stmin]).low = 0 := by
    show (0x30 : UInt8) &&& 0x0F = 0
    decide
  have hwait : ¬(l.nBsUs ≠ 0 ∧ l.fcDeadline ≤ now) := by
    intro hx
    exact hbs ⟨hx.1, .inl htx, hx.2⟩
  have heq : l.onFrame now (pdu [0x30, bs, stmin]) = l.onFlow now (pdu [0x30, bs, stmin]) := by
    simp [Link.onFrame, hpci]
  rw [heq]
  simp only [Link.onFlow, htx, ne_eq, not_true_eq_false, if_false, if_neg hwait, hlow, if_true]
  exact ⟨trivial, rfl, rfl, ⟨h.rx, h.noFlow, h.noRefusal⟩,
    ⟨⟨hs.holds.length, hs.holds.bytes⟩, hs.pos, hs.sn, hs.more⟩⟩

/-- The next consecutive frame: it is the last, or the last of its block, or neither. -/
theorem poll_next (now : UInt64) (h : SendsOnly l) (hs : Sends m l a) (htx : l.tx = .sendCf) :
    l.poll now = (none, l) ∨
      ((l.poll now).1 = some (nextFrames m a) ∧ SendsOnly (l.poll now).2 ∧
        ((m.length ≤ 6 + 7 * (a + 1) ∧ (l.poll now).2.tx = .idle) ∨
          (Sends m (l.poll now).2 (a + 1) ∧ (l.poll now).2.peerBs = l.peerBs ∧
            (((l.peerBs = 0 ∨ l.blockLeft ≠ 1) ∧ (l.poll now).2.tx = .sendCf ∧
                (l.peerBs ≠ 0 → (l.poll now).2.blockLeft = l.blockLeft - 1)) ∨
              (l.peerBs ≠ 0 ∧ l.blockLeft = 1 ∧ (l.poll now).2.tx = .waitFc))))) := by
  have hpoll : l.poll now = l.pollCf now := by
    simp [Link.poll, h.noFlow, h.noRefusal, htx]
  have hlen := hs.holds.length
  have hmore := hs.more
  have hpos := hs.pos
  rw [hpoll]
  simp only [Link.pollCf]
  split
  · exact .inl rfl
  right
  have hframe : pdu ((0x20 ||| (l.txSn &&& 0x0F)) :: (List.range (min (l.txLen - l.txPos) 7)).map
      fun i => l.txBuf (l.txPos + i)) = nextFrames m a := by
    rw [hlen, hpos, slice_of_bytes (by omega) hs.holds.bytes, hs.sn, sn_and, nextFrames]
    congr 2
    apply List.take_eq_take_iff.mpr
    simp only [List.length_drop]
    omega
  have hsn : (l.txSn + 1) &&& 0x0F = sn (a + 1 + 1) := by
    rw [hs.sn, next_sn_eq]
  have hblock : l.blockLeft - 1 = 0 ↔ l.blockLeft = 1 := by
    constructor
    · intro hx
      exact (UInt8.sub_add_cancel _ _).symm.trans (congrArg (· + 1) hx)
    · rintro hx
      rw [hx]
      rfl
  by_cases hend : m.length ≤ 6 + 7 * (a + 1)
  · have hlast : l.txLen ≤ l.txPos + min (l.txLen - l.txPos) 7 := by omega
    rw [hframe, if_pos hlast]
    exact ⟨rfl, ⟨h.rx, h.noFlow, h.noRefusal⟩, .inl ⟨hend, rfl⟩⟩
  · have hnot : ¬l.txLen ≤ l.txPos + min (l.txLen - l.txPos) 7 := by omega
    have hnext : l.txPos + min (l.txLen - l.txPos) 7 = 6 + 7 * (a + 1) := by omega
    rw [hframe, if_neg hnot]
    have hstill : ∀ l' : Link, l'.txLen = l.txLen → l'.txBuf = l.txBuf →
        l'.txPos = l.txPos + min (l.txLen - l.txPos) 7 → l'.txSn = (l.txSn + 1) &&& 0x0F →
        Sends m l' (a + 1) := by
      intro l' h₁ h₂ h₃ h₄
      exact ⟨⟨h₁.trans hlen, by rw [h₂]; exact hs.holds.bytes⟩, h₃.trans hnext, h₄.trans hsn,
        by omega⟩
    split
    · rename_i hpeer
      simp only [hblock]
      split
      · rename_i hzero
        exact ⟨rfl, ⟨h.rx, h.noFlow, h.noRefusal⟩, .inr ⟨hstill _ rfl rfl rfl rfl, rfl,
          .inr ⟨hpeer, hzero, rfl⟩⟩⟩
      · rename_i hzero
        exact ⟨rfl, ⟨h.rx, h.noFlow, h.noRefusal⟩, .inr ⟨hstill _ rfl rfl rfl rfl, rfl,
          .inl ⟨.inr hzero, htx, fun _ => rfl⟩⟩⟩
    · rename_i hpeer
      exact ⟨rfl, ⟨h.rx, h.noFlow, h.noRefusal⟩, .inr ⟨hstill _ rfl rfl rfl rfl, rfl,
        .inl ⟨.inl (by simpa using hpeer), htx, fun hx => absurd (by simpa using hpeer) hx⟩⟩⟩

/-! ## The receiving link -/

/-- The receiving link sends no message, and refuses none. -/
structure ReceivesOnly (l : Link) : Prop where
  tx : l.tx = .idle
  noRefusal : l.fcOvflw = false

/-- No reception is under way, and no message waits. -/
structure Calm (l : Link) : Prop where
  rx : l.rx = .idle
  noFlow : l.fcSend = false
  ready : l.ready = false

/-- The link has received the first frame and `b` consecutive frames, and more are to come. -/
structure Receives (m : List UInt8) (l : Link) (b : ℕ) : Prop where
  rx : l.rx = .receiving
  length : l.rxLen = m.length
  pos : l.rxPos = 6 + 7 * b
  sn : l.rxSn = sn (b + 1)
  more : 6 + 7 * b < m.length
  bytes : prefixOf l.rxBuf (6 + 7 * b) = m.take (6 + 7 * b)
  ready : l.ready = false

/-- The message waits to be taken. -/
structure Delivered (m : List UInt8) (l : Link) : Prop where
  rx : l.rx = .idle
  noFlow : l.fcSend = false
  ready : l.ready = true
  length : l.readyLen = m.length
  bytes : prefixOf l.rxBuf m.length = m

theorem tick_receiver (h : ReceivesOnly l) (hcr : ¬l.crExpired now) : l.tick now = l := by
  have hbs : ¬l.bsExpired now := by
    simp [Link.bsExpired, h.tx]
  simp only [Link.tick, if_neg hbs, if_neg hcr]

theorem poll_receiver (h : ReceivesOnly l) (hf : l.fcSend = false) : l.poll now = (none, l) := by
  simp [Link.poll, h.noRefusal, hf, h.tx]

theorem poll_clear (h : ReceivesOnly l) (hf : l.fcSend = true) :
    l.poll now = (some (pdu [0x30, l.bs, l.stmin]),
      { l with fcSend := false, rxDeadline := now + l.nCrUs }) := by
  simp [Link.poll, h.noRefusal, hf]

theorem take_delivered (h : Delivered m l) : l.take = (some m, { l with ready := false }) := by
  simp [Link.take, h.ready, h.length, h.bytes]

theorem take_none (h : l.ready = false) : l.take = (none, l) := by
  simp [Link.take, h]

/-- A single frame delivers its message. -/
theorem onFrame_single (now : UInt64) (h : ReceivesOnly l) (hm : 0 < m.length) (hm' : m.length ≤ 7) :
    Delivered m (l.onFrame now (singleFrame m)) ∧ ReceivesOnly (l.onFrame now (singleFrame m)) ∧
      (l.onFrame now (singleFrame m)).bs = l.bs := by
  obtain ⟨hpci, hlow⟩ := pci_single hm'
  have heq : l.onFrame now (singleFrame m) = { l with
      rxBuf := store l.rxBuf 0 m, ready := true, readyLen := m.length, rx := .idle,
      fcSend := false, fcOvflw := false, progress := l.progress + 1 } := by
    simp only [Link.onFrame, hpci, if_true, Link.onSingle, hlow, bytes_single hm']
    rw [if_pos ⟨hm, hm'⟩]
  rw [heq]
  exact ⟨⟨rfl, rfl, rfl, rfl, prefixOf_store_zero _ rfl⟩, ⟨h.tx, rfl⟩, rfl⟩

/-- A first frame begins a reception, and flow control is owed for it. -/
theorem onFrame_first (now : UInt64) (h : ReceivesOnly l) (hc : Calm l) (hm : 7 < m.length)
    (hm' : m.length ≤ maxPayload) :
    Receives m (l.onFrame now (firstFrame m)) 0 ∧ ReceivesOnly (l.onFrame now (firstFrame m)) ∧
      (l.onFrame now (firstFrame m)).fcSend = true ∧ (l.onFrame now (firstFrame m)).rxCount = 0 ∧
      (l.onFrame now (firstFrame m)).bs = l.bs := by
  have hpci := pci_first hm'
  have hzero : ¬(firstFrame m).pci = 0x00 := by
    rw [hpci]
    decide
  have heq : l.onFrame now (firstFrame m) = { l with
      fcOvflw := false, rxBuf := store l.rxBuf 0 (m.take 6), rxLen := m.length, rxPos := 6,
      rxSn := 1, rxCount := 0, rx := .receiving, rxDeadline := 0, fcSend := true,
      progress := if l.rx ≠ .receiving then l.progress + 1 else l.progress } := by
    simp only [Link.onFrame, if_neg hzero, if_pos hpci, Link.onFirst, total_first hm',
      bytes_first hm]
    rw [if_pos ⟨hm, hm'⟩]
  have htake : (m.take 6).length = 6 := by
    rw [List.length_take]
    omega
  rw [heq]
  exact ⟨⟨rfl, rfl, rfl, rfl, by omega, prefixOf_store_zero _ htake, hc.ready⟩, ⟨h.tx, rfl⟩, rfl,
    rfl, rfl⟩

/-- The next consecutive frame: it completes the message, or the block, or neither. -/
theorem onFrame_next (h : ReceivesOnly l) (hr : Receives m l b) (hf : l.fcSend = false)
    (hcr : ¬l.crExpired now) :
    ReceivesOnly (l.onFrame now (nextFrames m b)) ∧
      (l.onFrame now (nextFrames m b)).bs = l.bs ∧
      ((m.length ≤ 6 + 7 * (b + 1) ∧ Delivered m (l.onFrame now (nextFrames m b))) ∨
        (Receives m (l.onFrame now (nextFrames m b)) (b + 1) ∧
          ((l.bs ≠ 0 ∧ l.bs ≤ l.rxCount + 1 ∧ (l.onFrame now (nextFrames m b)).fcSend = true ∧
              (l.onFrame now (nextFrames m b)).rxCount = 0) ∨
            (¬(l.bs ≠ 0 ∧ l.bs ≤ l.rxCount + 1) ∧
              (l.onFrame now (nextFrames m b)).fcSend = false ∧
              (l.onFrame now (nextFrames m b)).rxCount = l.rxCount + 1)))) := by
  have hpci := pci_next m b
  have hmore := hr.more
  have hlow : (nextFrames m b).low = l.rxSn &&& 0x0F := by
    rw [low_next, hr.sn, sn_and]
  have heq : l.onFrame now (nextFrames m b) = l.inSequence now (nextFrames m b) := by
    simp only [Link.onFrame, hpci, Link.onConsecutive, if_neg hcr, hr.rx, hlow]
    simp
  have hpos := hr.pos
  have hlen := hr.length
  have hn : min (l.rxLen - l.rxPos) 7 ≤ 7 := Nat.min_le_right _ _
  have hbytes : (nextFrames m b).bytes 1 (min (l.rxLen - l.rxPos) 7) =
      (m.drop (6 + 7 * b)).take (min (l.rxLen - l.rxPos) 7) := bytes_next m hn (by omega)
  have hcount : ((m.drop (6 + 7 * b)).take (min (l.rxLen - l.rxPos) 7)).length =
      min (l.rxLen - l.rxPos) 7 := by
    rw [List.length_take, List.length_drop]
    omega
  have hprefix : prefixOf l.rxBuf l.rxPos = m.take (6 + 7 * b) := by
    rw [hpos]
    exact hr.bytes
  have hbuf := prefixOf_store l.rxBuf l.rxPos ((m.drop (6 + 7 * b)).take (min (l.rxLen - l.rxPos) 7))
  rw [hcount, hprefix, ← List.take_add] at hbuf
  rw [heq]
  simp only [Link.inSequence, hbytes]
  by_cases hend : m.length ≤ 6 + 7 * (b + 1)
  · have hall : 6 + 7 * b + min (l.rxLen - l.rxPos) 7 = m.length := by omega
    have hlast : l.rxPos + min (l.rxLen - l.rxPos) 7 = m.length := by omega
    rw [hall, List.take_length, hlast] at hbuf
    rw [if_pos (show l.rxLen ≤ l.rxPos + min (l.rxLen - l.rxPos) 7 by omega)]
    exact ⟨⟨h.tx, h.noRefusal⟩, rfl, .inl ⟨hend, ⟨rfl, hf, rfl, hlen, hbuf⟩⟩⟩
  · have hseven : 6 + 7 * b + min (l.rxLen - l.rxPos) 7 = 6 + 7 * (b + 1) := by omega
    have hnext : l.rxPos + min (l.rxLen - l.rxPos) 7 = 6 + 7 * (b + 1) := by omega
    rw [hseven, hnext] at hbuf
    rw [if_neg (show ¬l.rxLen ≤ l.rxPos + min (l.rxLen - l.rxPos) 7 by omega)]
    have hsn : (l.rxSn + 1) &&& 0x0F = sn (b + 1 + 1) := by
      rw [hr.sn, next_sn_eq]
    have hstill : ∀ l' : Link, l'.rx = l.rx → l'.rxLen = l.rxLen →
        l'.rxPos = l.rxPos + min (l.rxLen - l.rxPos) 7 → l'.rxSn = (l.rxSn + 1) &&& 0x0F →
        l'.rxBuf = store l.rxBuf l.rxPos ((m.drop (6 + 7 * b)).take
          (min (l.rxLen - l.rxPos) 7)) → l'.ready = l.ready → Receives m l' (b + 1) := by
      intro l' h₁ h₂ h₃ h₄ h₅ h₆
      refine ⟨h₁.trans hr.rx, h₂.trans hlen, h₃.trans hnext, h₄.trans hsn, by omega, ?_,
        h₆.trans hr.ready⟩
      rw [h₅]
      exact hbuf
    split
    · rename_i hfull
      exact ⟨⟨h.tx, h.noRefusal⟩, rfl, .inr ⟨hstill _ rfl rfl rfl rfl rfl rfl,
        .inl ⟨hfull.1, hfull.2, rfl, rfl⟩⟩⟩
    · rename_i hfull
      exact ⟨⟨h.tx, h.noRefusal⟩, rfl, .inr ⟨hstill _ rfl rfl rfl rfl rfl rfl,
        .inr ⟨hfull, hf, rfl⟩⟩⟩

/-! ## Two links -/

/-- The links, the frames on their way in either direction, and the messages sent and taken. -/
structure World where
  sender : Link
  receiver : Link
  down : List Pdu
  up : List Pdu
  sent : List (List UInt8)
  taken : List (List UInt8)

/-- What the owners of the links do, in any order. -/
inductive Move where
  | send (m : List UInt8)
  | pollSender (now : UInt64)
  | frameSender (now : UInt64)
  | tickSender (now : UInt64)
  | pollReceiver (now : UInt64)
  | frameReceiver (now : UInt64)
  | tickReceiver (now : UInt64)
  | take

namespace World

def apply (w : World) : Move → World
  | .send m =>
    if (w.sender.send m).1 then { w with sender := (w.sender.send m).2, sent := w.sent ++ [m] }
    else w
  | .pollSender now =>
    { w with sender := (w.sender.poll now).2, down := w.down ++ (w.sender.poll now).1.toList }
  | .frameSender now =>
    match w.up with
    | [] => w
    | p :: up => { w with sender := w.sender.onFrame now p, up := up }
  | .tickSender now => { w with sender := w.sender.tick now }
  | .pollReceiver now =>
    { w with receiver := (w.receiver.poll now).2, up := w.up ++ (w.receiver.poll now).1.toList }
  | .frameReceiver now =>
    match w.down with
    | [] => w
    | p :: down => { w with receiver := w.receiver.onFrame now p, down := down }
  | .tickReceiver now => { w with receiver := w.receiver.tick now }
  | .take => { w with receiver := w.receiver.take.2, taken := w.taken ++ w.receiver.take.1.toList }

/-- The move is in time: no timeout of its link has passed; and a message is sent once the previous
one was taken. -/
def InTime (w : World) : Move → Prop
  | .send _ => w.taken.length = w.sent.length
  | .pollSender now | .frameSender now | .tickSender now => ¬w.sender.bsExpired now
  | .pollReceiver now | .frameReceiver now | .tickReceiver now => ¬w.receiver.crExpired now
  | .take => True

instance (w : World) (e : Move) : Decidable (w.InTime e) := by
  cases e <;> simp only [InTime] <;> infer_instance

/-- Nothing is left to do: no frame is on its way or to be sent, and no message waits. -/
structure Settled (w : World) : Prop where
  down : w.down = []
  up : w.up = []
  sends : w.sender.tx = .idle ∨ w.sender.tx = .waitFc
  owes : w.receiver.fcSend = false
  waits : w.receiver.ready = false

end World

/-! ## The stages of a transfer -/

/-- What the links hold of a message, and which frames of it are on their way: down to the receiver,
and up to the sender. -/
inductive Stage (m : List UInt8) (s r : Link) : List Pdu → List Pdu → Prop
  | single (short : m.length ≤ 7) (holds : Holds m s) (tx : s.tx = .sendSf) (calm : Calm r) :
    Stage m s r [] []
  | singleSent (short : m.length ≤ 7) (tx : s.tx = .idle) (calm : Calm r) :
    Stage m s r [singleFrame m] []
  | first (long : 7 < m.length) (holds : Holds m s) (tx : s.tx = .sendFf) (calm : Calm r) :
    Stage m s r [] []
  | firstSent (long : 7 < m.length) (sends : Sends m s 0) (tx : s.tx = .waitFc) (calm : Calm r) :
    Stage m s r [firstFrame m] []
  | owed (b : ℕ) (sends : Sends m s b) (tx : s.tx = .waitFc) (receives : Receives m r b)
    (owes : r.fcSend = true) (count : r.rxCount = 0) : Stage m s r [] []
  | granted (b : ℕ) (sends : Sends m s b) (tx : s.tx = .waitFc) (receives : Receives m r b)
    (owes : r.fcSend = false) (count : r.rxCount = 0) : Stage m s r [] [pdu [0x30, r.bs, r.stmin]]
  | sending (a b : ℕ) (sends : Sends m s a) (tx : s.tx = .sendCf) (receives : Receives m r b)
    (owes : r.fcSend = false) (order : b ≤ a) (peer : s.peerBs = r.bs)
    (block : r.bs ≠ 0 → 0 < s.blockLeft.toNat ∧
      s.blockLeft.toNat + (a - b) + r.rxCount.toNat = r.bs.toNat) :
    Stage m s r (framesFrom m b a) []
  | blocked (a b : ℕ) (sends : Sends m s a) (tx : s.tx = .waitFc) (receives : Receives m r b)
    (owes : r.fcSend = false) (order : b < a) (limited : r.bs ≠ 0)
    (block : (a - b) + r.rxCount.toNat = r.bs.toNat) : Stage m s r (framesFrom m b a) []
  | lastSent (a b : ℕ) (tx : s.tx = .idle) (receives : Receives m r b) (owes : r.fcSend = false)
    (order : b < a) (last : 6 + 7 * (a - 1) < m.length) (all : m.length ≤ 6 + 7 * a)
    (block : r.bs ≠ 0 → (a - b) + r.rxCount.toNat ≤ r.bs.toNat) : Stage m s r (framesFrom m b a) []
  | delivered (tx : s.tx = .idle) (delivered : Delivered m r) : Stage m s r [] []

/-- The ends are at rest, or one message is on its way. -/
structure Delivers (w : World) : Prop where
  sender : SendsOnly w.sender
  receiver : ReceivesOnly w.receiver
  stage : (w.sent = w.taken ∧ w.sender.tx = .idle ∧ Calm w.receiver ∧ w.down = [] ∧ w.up = []) ∨
    ∃ m, 0 < m.length ∧ m.length ≤ maxPayload ∧ w.sent = w.taken ++ [m] ∧
      Stage m w.sender w.receiver w.down w.up

/-! ## Moves between the stages -/

variable {s r : Link} {down up : List Pdu}

/-- The sending link is idle, waits, or has its next frame to send. -/
theorem stage_pollSender (hs : SendsOnly s) (hst : Stage m s r down up) (hbs : ¬s.bsExpired now) :
    SendsOnly (s.poll now).2 ∧
      Stage m (s.poll now).2 r (down ++ (s.poll now).1.toList) up := by
  have hstays (htx : s.tx = .idle ∨ s.tx = .waitFc) : SendsOnly (s.poll now).2 ∧
      Stage m (s.poll now).2 r (down ++ (s.poll now).1.toList) up := by
    rw [poll_waiting hs htx hbs]
    simpa using ⟨hs, hst⟩
  cases hst with
  | single short holds tx calm =>
    rw [poll_single hs holds tx]
    exact ⟨⟨hs.rx, hs.noFlow, hs.noRefusal⟩, .singleSent short rfl calm⟩
  | singleSent short tx calm => exact hstays (.inl tx)
  | first long holds tx calm =>
    obtain ⟨hframe, htx, honly, hsends⟩ := poll_first now hs holds tx long
    rw [hframe]
    exact ⟨honly, .firstSent long hsends htx calm⟩
  | firstSent long sends tx calm => exact hstays (.inr tx)
  | owed b sends tx receives owes count => exact hstays (.inr tx)
  | granted b sends tx receives owes count => exact hstays (.inr tx)
  | sending a b sends tx receives owes order peer block =>
    rcases poll_next now hs sends tx with hnone | ⟨hframe, honly, hnext⟩
    · rw [hnone]
      simpa using ⟨hs, Stage.sending a b sends tx receives owes order peer block⟩
    · rw [hframe, Option.toList_some, ← framesFrom_snoc m order]
      refine ⟨honly, ?_⟩
      rcases hnext with ⟨hend, htx⟩ | ⟨hsends, hpeer, hmore | ⟨hlimited, hone, htx⟩⟩
      · refine .lastSent (a + 1) b htx receives owes (by omega) sends.more hend fun hlim => ?_
        have := block hlim
        omega
      · obtain ⟨hopen, htx, hleft⟩ := hmore
        refine .sending (a + 1) b hsends htx receives owes (by omega) (hpeer.trans peer)
          fun hlim => ?_
        have hbefore := block hlim
        rw [← peer] at hlim
        have hne : s.blockLeft.toNat ≠ 1 := by
          intro hx
          exact (hopen.resolve_left hlim) (UInt8.toNat_inj.mp hx)
        have hsub : (s.poll now).2.blockLeft.toNat = s.blockLeft.toNat - 1 := by
          rw [hleft hlim]
          exact UInt8.toNat_sub_of_le _ _ (UInt8.le_iff_toNat_le.mpr (Nat.succ_le_of_lt hbefore.1))
        omega
      · rw [peer] at hlimited
        have hbefore := block hlimited
        rw [hone] at hbefore
        simp only [UInt8.toNat_one] at hbefore
        exact .blocked (a + 1) b hsends htx receives owes (by omega) hlimited (by omega)
  | blocked a b sends tx receives owes order limited block => exact hstays (.inr tx)
  | lastSent a b tx receives owes order last all block => exact hstays (.inl tx)
  | delivered tx delivered => exact hstays (.inl tx)

/-- The flow control arrives. -/
theorem stage_frameSender {p : Pdu} (hs : SendsOnly s) (hst : Stage m s r down (p :: up))
    (hbs : ¬s.bsExpired now) :
    SendsOnly (s.onFrame now p) ∧ Stage m (s.onFrame now p) r down up := by
  cases hst with
  | granted b sends tx receives owes count =>
    obtain ⟨htx, hpeer, hleft, honly, hsends⟩ := onFlow_clear hs sends tx hbs r.bs r.stmin
    have hblock : r.bs ≠ 0 → 0 < (s.onFrame now (pdu [0x30, r.bs, r.stmin])).blockLeft.toNat ∧
        (s.onFrame now (pdu [0x30, r.bs, r.stmin])).blockLeft.toNat + (b - b) + r.rxCount.toNat =
          r.bs.toNat := by
      intro hlim
      have hpos : 0 < r.bs.toNat := by
        rw [Nat.pos_iff_ne_zero]
        intro hx
        exact hlim (UInt8.toNat_inj.mp hx)
      rw [hleft, count]
      simp [hpos]
    have hstage := Stage.sending b b hsends htx receives owes (Nat.le_refl b) hpeer hblock
    rw [framesFrom_self] at hstage
    exact ⟨honly, hstage⟩

/-- The receiving link sends the flow control it owes. -/
theorem stage_pollReceiver (now : UInt64) (hr : ReceivesOnly r) (hst : Stage m s r down up) :
    ReceivesOnly (r.poll now).2 ∧
      Stage m s (r.poll now).2 down (up ++ (r.poll now).1.toList) := by
  have hstays (hf : r.fcSend = false) : ReceivesOnly (r.poll now).2 ∧
      Stage m s (r.poll now).2 down (up ++ (r.poll now).1.toList) := by
    rw [poll_receiver hr hf]
    simpa using ⟨hr, hst⟩
  cases hst with
  | single short holds tx calm => exact hstays calm.noFlow
  | singleSent short tx calm => exact hstays calm.noFlow
  | first long holds tx calm => exact hstays calm.noFlow
  | firstSent long sends tx calm => exact hstays calm.noFlow
  | owed b sends tx receives owes count =>
    rw [poll_clear hr owes]
    obtain ⟨h₁, h₂, h₃, h₄, h₅, h₆, h₇⟩ := receives
    exact ⟨⟨hr.tx, hr.noRefusal⟩, .granted b sends tx ⟨h₁, h₂, h₃, h₄, h₅, h₆, h₇⟩ rfl count⟩
  | granted b sends tx receives owes count => exact hstays owes
  | sending a b sends tx receives owes order peer block => exact hstays owes
  | blocked a b sends tx receives owes order limited block => exact hstays owes
  | lastSent a b tx receives owes order last all block => exact hstays owes
  | delivered tx delivered => exact hstays delivered.noFlow

theorem framesFrom_eq_cons {p : Pdu} {ps : List Pdu} (h : framesFrom m b a = p :: ps) :
    b < a ∧ p = nextFrames m b ∧ ps = framesFrom m (b + 1) a := by
  by_cases hlt : b < a
  · rw [framesFrom_cons m hlt] at h
    obtain ⟨h₁, h₂⟩ := List.cons.inj h
    exact ⟨hlt, h₁.symm, h₂.symm⟩
  · have hnil : framesFrom m b a = [] := by
      simp [framesFrom, Nat.sub_eq_zero_of_le (Nat.le_of_not_lt hlt)]
    rw [hnil] at h
    cases h

/-- A count below the block size stays below it by one more frame. -/
theorem count_succ {bs count : UInt8} (h : count.toNat + 1 < bs.toNat) :
    (count + 1).toNat = count.toNat + 1 ∧ ¬bs ≤ count + 1 := by
  have hlt := bs.toNat_lt
  have hsucc : (count + 1).toNat = count.toNat + 1 := by
    rw [UInt8.toNat_add, UInt8.toNat_one]
    omega
  refine ⟨hsucc, ?_⟩
  rw [UInt8.le_iff_toNat_le, hsucc]
  omega

/-- A frame arrives at the receiving link. -/
theorem stage_frameReceiver {p : Pdu} (hm : 0 < m.length) (hm' : m.length ≤ maxPayload)
    (hr : ReceivesOnly r) (hst : Stage m s r (p :: down) up) (hcr : ¬r.crExpired now) :
    ReceivesOnly (r.onFrame now p) ∧ Stage m s (r.onFrame now p) down up := by
  generalize hframes : p :: down = frames at hst
  cases hst with
  | single => cases hframes
  | first => cases hframes
  | owed => cases hframes
  | granted => cases hframes
  | delivered => cases hframes
  | singleSent short tx calm =>
    obtain ⟨rfl, rfl⟩ := List.cons.inj hframes
    obtain ⟨hdone, honly, -⟩ := onFrame_single now hr hm short
    exact ⟨honly, .delivered tx hdone⟩
  | firstSent long sends tx calm =>
    obtain ⟨rfl, rfl⟩ := List.cons.inj hframes
    obtain ⟨hrec, honly, hf, hcount, -⟩ := onFrame_first now hr calm long hm'
    exact ⟨honly, .owed 0 sends tx hrec hf hcount⟩
  | sending a b sends tx receives owes order peer block =>
    obtain ⟨hlt, rfl, rfl⟩ := framesFrom_eq_cons hframes.symm
    obtain ⟨honly, hbs, hnext⟩ := onFrame_next hr receives owes hcr
    refine ⟨honly, ?_⟩
    have hmore := sends.more
    rcases hnext with ⟨hend, -⟩ | ⟨hrec, ⟨hlim, hle, -⟩ | ⟨-, hf, hcount⟩⟩
    · omega
    · have hblock := block hlim
      exact absurd hle (count_succ (by omega)).2
    · refine .sending a (b + 1) sends tx hrec hf (by omega) (peer.trans hbs.symm) fun hlim => ?_
      rw [hbs] at hlim
      have hblock := block hlim
      rw [hbs, hcount, (count_succ (show r.rxCount.toNat + 1 < r.bs.toNat by omega)).1]
      omega
  | blocked a b sends tx receives owes order limited block =>
    obtain ⟨hlt, rfl, rfl⟩ := framesFrom_eq_cons hframes.symm
    obtain ⟨honly, hbs, hnext⟩ := onFrame_next hr receives owes hcr
    refine ⟨honly, ?_⟩
    have hmore := sends.more
    have hsize := r.bs.toNat_lt
    rcases hnext with ⟨hend, -⟩ | ⟨hrec, ⟨-, hle, hf, hcount⟩ | ⟨hnot, hf, hcount⟩⟩
    · omega
    · -- the block is full: that was its last frame
      have hlast : b + 1 = a := by
        by_contra hne
        exact absurd hle (count_succ (by omega)).2
      subst hlast
      rw [framesFrom_self]
      exact .owed (b + 1) sends tx hrec hf hcount
    · have hsucc : (r.rxCount + 1).toNat = r.rxCount.toNat + 1 := by
        rw [UInt8.toNat_add, UInt8.toNat_one]
        omega
      have hless : ¬r.bs ≤ r.rxCount + 1 := fun hle => hnot ⟨limited, hle⟩
      rw [UInt8.le_iff_toNat_le, hsucc] at hless
      refine .blocked a (b + 1) sends tx hrec hf (by omega) (by rw [hbs]; exact limited) ?_
      rw [hbs, hcount, hsucc]
      omega
  | lastSent a b tx receives owes order last all block =>
    obtain ⟨hlt, rfl, rfl⟩ := framesFrom_eq_cons hframes.symm
    obtain ⟨honly, hbs, hnext⟩ := onFrame_next hr receives owes hcr
    refine ⟨honly, ?_⟩
    rcases hnext with ⟨hend, hdone⟩ | ⟨hrec, hmid⟩
    · have hlast : b + 1 = a := by omega
      subst hlast
      rw [framesFrom_self]
      exact .delivered tx hdone
    · have hmore := hrec.more
      have hafter : b + 1 < a := by omega
      rcases hmid with ⟨hlim, hle, -⟩ | ⟨-, hf, hcount⟩
      · have hblock := block hlim
        exact absurd hle (count_succ (by omega)).2
      · refine .lastSent a (b + 1) tx hrec hf hafter last all fun hlim => ?_
        rw [hbs] at hlim
        have hblock := block hlim
        rw [hbs, hcount, (count_succ (show r.rxCount.toNat + 1 < r.bs.toNat by omega)).1]
        omega

/-- No message waits before the last frame. -/
theorem stage_ready (hst : Stage m s r down up) :
    r.ready = false ∨ (down = [] ∧ up = [] ∧ s.tx = .idle ∧ Delivered m r) := by
  cases hst with
  | single short holds tx calm => exact .inl calm.ready
  | singleSent short tx calm => exact .inl calm.ready
  | first long holds tx calm => exact .inl calm.ready
  | firstSent long sends tx calm => exact .inl calm.ready
  | owed b sends tx receives owes count => exact .inl receives.ready
  | granted b sends tx receives owes count => exact .inl receives.ready
  | sending a b sends tx receives owes order peer block => exact .inl receives.ready
  | blocked a b sends tx receives owes order limited block => exact .inl receives.ready
  | lastSent a b tx receives owes order last all block => exact .inl receives.ready
  | delivered tx delivered => exact .inr ⟨rfl, rfl, tx, delivered⟩

/-- A message that was sent has something left to move until it is taken. -/
theorem stage_moves (hst : Stage m s r down up) :
    ¬(down = [] ∧ up = [] ∧ (s.tx = .idle ∨ s.tx = .waitFc) ∧ r.fcSend = false ∧ r.ready = false) := by
  rintro ⟨hdown, hup, htx, hf, hready⟩
  cases hst with
  | single short holds tx calm => simp [tx] at htx
  | singleSent => cases hdown
  | first long holds tx calm => simp [tx] at htx
  | firstSent => cases hdown
  | owed b sends tx receives owes count => simp [owes] at hf
  | granted => cases hup
  | sending a b sends tx receives owes order peer block => simp [tx] at htx
  | blocked a b sends tx receives owes order limited block =>
    rw [framesFrom_cons m order] at hdown
    cases hdown
  | lastSent a b tx receives owes order last all block =>
    rw [framesFrom_cons m order] at hdown
    cases hdown
  | delivered tx delivered => simp [delivered.ready] at hready

/-! ## Runs -/

/-- A message that is accepted begins its transfer. -/
theorem stage_send (hs : SendsOnly s) (hr : Calm r) (hacc : (s.send m).1 = true) :
    0 < m.length ∧ m.length ≤ maxPayload ∧ SendsOnly (s.send m).2 ∧
      Stage m (s.send m).2 r [] [] := by
  simp only [Link.send] at hacc ⊢
  split at hacc
  · cases hacc
  · rename_i hno
    rw [if_neg hno]
    simp only [not_or, ne_eq, Classical.not_not] at hno
    have hholds : prefixOf (store s.txBuf 0 m) m.length = m := prefixOf_store_zero _ rfl
    refine ⟨by omega, by omega, ⟨hs.rx, hs.noFlow, hs.noRefusal⟩, ?_⟩
    by_cases hshort : m.length ≤ 7
    · exact .single hshort ⟨rfl, hholds⟩ (if_pos hshort) hr
    · exact .first (by omega) ⟨rfl, hholds⟩ (if_neg hshort) hr

/-- One move in time. -/
theorem delivers_apply {w : World} (h : Delivers w) {e : Move} (he : w.InTime e) :
    Delivers (w.apply e) := by
  obtain ⟨hs, hr, hstage⟩ := h
  cases e with
  | send m =>
    simp only [World.apply]
    split
    · rename_i hacc
      rcases hstage with ⟨hsent, -, hcalm, hdown, hup⟩ | ⟨m', -, -, hsent, -⟩
      · obtain ⟨hpos, hmax, honly, hst⟩ := stage_send hs hcalm hacc
        refine ⟨honly, hr, .inr ⟨m, hpos, hmax, ?_, ?_⟩⟩
        · show w.sent ++ [m] = w.taken ++ [m]
          rw [hsent]
        · show Stage m (w.sender.send m).2 w.receiver w.down w.up
          rw [hdown, hup]
          exact hst
      · have hlen := congrArg List.length hsent
        have hturn : w.taken.length = w.sent.length := he
        rw [List.length_append, List.length_singleton] at hlen
        omega
    · exact ⟨hs, hr, hstage⟩
  | pollSender now =>
    rcases hstage with ⟨hsent, htx, hcalm, hdown, hup⟩ | ⟨m, hpos, hmax, hsent, hst⟩
    · simp only [World.apply, poll_waiting hs (.inl htx) he, Option.toList_none, List.append_nil]
      exact ⟨hs, hr, .inl ⟨hsent, htx, hcalm, hdown, hup⟩⟩
    · obtain ⟨honly, hst⟩ := stage_pollSender hs hst he
      exact ⟨honly, hr, .inr ⟨m, hpos, hmax, hsent, hst⟩⟩
  | frameSender now =>
    simp only [World.apply]
    split
    · exact ⟨hs, hr, hstage⟩
    · rename_i p up hup
      rcases hstage with ⟨-, -, -, -, hnil⟩ | ⟨m, hpos, hmax, hsent, hst⟩
      · rw [hup] at hnil
        cases hnil
      · rw [hup] at hst
        obtain ⟨honly, hst⟩ := stage_frameSender hs hst he
        exact ⟨honly, hr, .inr ⟨m, hpos, hmax, hsent, hst⟩⟩
  | tickSender now =>
    simp only [World.apply, tick_sender hs he]
    exact ⟨hs, hr, hstage⟩
  | pollReceiver now =>
    rcases hstage with ⟨hsent, htx, hcalm, hdown, hup⟩ | ⟨m, hpos, hmax, hsent, hst⟩
    · simp only [World.apply, poll_receiver hr hcalm.noFlow, Option.toList_none, List.append_nil]
      exact ⟨hs, hr, .inl ⟨hsent, htx, hcalm, hdown, hup⟩⟩
    · obtain ⟨honly, hst⟩ := stage_pollReceiver now hr hst
      exact ⟨hs, honly, .inr ⟨m, hpos, hmax, hsent, hst⟩⟩
  | frameReceiver now =>
    simp only [World.apply]
    split
    · exact ⟨hs, hr, hstage⟩
    · rename_i p down hdown
      rcases hstage with ⟨-, -, -, hnil, -⟩ | ⟨m, hpos, hmax, hsent, hst⟩
      · rw [hdown] at hnil
        cases hnil
      · rw [hdown] at hst
        obtain ⟨honly, hst⟩ := stage_frameReceiver hpos hmax hr hst he
        exact ⟨hs, honly, .inr ⟨m, hpos, hmax, hsent, hst⟩⟩
  | tickReceiver now =>
    simp only [World.apply, tick_receiver hr he]
    exact ⟨hs, hr, hstage⟩
  | take =>
    have hnone (hready : w.receiver.ready = false) : Delivers (w.apply .take) := by
      simp only [World.apply, take_none hready, Option.toList_none, List.append_nil]
      exact ⟨hs, hr, hstage⟩
    rcases hstage with ⟨hsent, htx, hcalm, hdown, hup⟩ | ⟨m, hpos, hmax, hsent, hst⟩
    · exact hnone hcalm.ready
    · rcases stage_ready hst with hready | ⟨hdown, hup, htx, hdone⟩
      · exact hnone hready
      · simp only [World.apply, take_delivered hdone, Option.toList_some]
        exact ⟨hs, ⟨hr.tx, hr.noRefusal⟩, .inl ⟨hsent, htx, ⟨hdone.rx, hdone.noFlow, rfl⟩, hdown, hup⟩⟩

/-- What a world shows: every message taken is the next of those sent, and at most the last one is
still on its way; once nothing is left to do, all are taken. -/
structure InOrder (w : World) : Prop where
  taken : ∃ rest, w.sent = w.taken ++ rest ∧ rest.length ≤ 1
  all : w.Settled → w.taken = w.sent

theorem Delivers.inOrder {w : World} (h : Delivers w) : InOrder w where
  taken := by
    rcases h.stage with ⟨hsent, -⟩ | ⟨m, -, -, hsent, -⟩
    · exact ⟨[], by simp [hsent], Nat.zero_le 1⟩
    · exact ⟨[m], hsent, Nat.le_refl 1⟩
  all hw := by
    rcases h.stage with ⟨hsent, -⟩ | ⟨m, -, -, -, hst⟩
    · exact hsent.symm
    · exact absurd ⟨hw.down, hw.up, hw.sends, hw.owes, hw.waits⟩ (stage_moves hst)

/-- Two links as their owners set them up, with nothing on its way. -/
def World.start (sender receiver : Link) : World := ⟨sender, receiver, [], [], [], []⟩

def World.step (w : World) (e : Move) : World × Unit := (w.apply e, ())

/-- Whatever the links are set up with, in every run whose moves are in time: the messages taken are
those sent, in order and whole, but for the last one while something of it is left to do. -/
theorem delivered_in_order (bs stmin wftMax bs' stmin' wftMax' : UInt8)
    (nBsUs nCrUs nBsUs' nCrUs' : UInt64) (es : List Move)
    (htime : ∀ x ∈ Trace.history World.step (World.start (fresh bs stmin wftMax nBsUs nCrUs)
      (fresh bs' stmin' wftMax' nBsUs' nCrUs')) es, x.before.InTime x.event) :
    InOrder (Trace.final World.step (World.start (fresh bs stmin wftMax nBsUs nCrUs)
      (fresh bs' stmin' wftMax' nBsUs' nCrUs')) es) := by
  refine Delivers.inOrder (Trace.run_induction_of (fun x => x.before.InTime x.event)
    (fun w _ => Delivers w) ?_ (fun _ _ h he => delivers_apply h he) es htime)
  exact ⟨⟨rfl, rfl, rfl⟩, ⟨rfl, rfl⟩, .inl ⟨rfl, rfl, ⟨rfl, rfl, rfl⟩, rfl, rfl⟩⟩

/-- Two blocks of two consecutive frames behind the first frame. -/
def twoBlocks : List Move :=
  [.send (List.range 30 |>.map UInt8.ofNat), .pollSender 1, .frameReceiver 2, .pollReceiver 3,
    .frameSender 4, .pollSender 5, .pollSender 6, .tickReceiver 7, .frameReceiver 8,
    .frameReceiver 9, .pollReceiver 10, .frameSender 11, .pollSender 12, .pollSender 13,
    .frameReceiver 14, .frameReceiver 15, .take]

/-- A link of the bench, with a block size. -/
def benchLink (bs : UInt8) : Link := fresh bs 0 16 1000000 1000000

theorem delivered_in_order_twoBlocks :
    (Trace.final World.step (World.start (benchLink 0) (benchLink 2)) twoBlocks).taken =
        [List.range 30 |>.map UInt8.ofNat] ∧
      InOrder (Trace.final World.step (World.start (benchLink 0) (benchLink 2)) twoBlocks) :=
  ⟨by decide +kernel, delivered_in_order 0 0 16 2 0 16 1000000 1000000 1000000 1000000 twoBlocks
    (by decide +kernel)⟩

end BloblyEmb.Isotp
