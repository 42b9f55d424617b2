import BloblyEmb.Isotp.Halves

/-!
# Flow control for a reception

A first frame and the end of a block owe the sender a flow control, which the next poll emits. A
single frame, a first frame that is refused and a gap that is too long withdraw it with the
reception; a consecutive frame that ends the reception does not. So the flow control goes to a live
reception exactly in the runs in which no consecutive frame ends a reception ahead of it.
-/
namespace BloblyEmb.Isotp

/-- A flow control is owed only while a reception waits for frames. -/
def Owed (l : Link) : Prop := l.fcSend = true → l.rx = .receiving

/-- A consecutive frame ends the reception, complete or out of sequence, while its flow control has
not gone out. -/
def Outruns (l : Link) (now : UInt64) (p : Pdu) : Prop :=
  p.pci = 0x20 ∧ l.fcSend = true ∧ ¬l.crExpired now ∧
    (p.low = l.rxSn &&& 0x0F → l.rxLen - l.rxPos ≤ 7)

instance (l : Link) (now : UInt64) (p : Pdu) : Decidable (Outruns l now p) :=
  inferInstanceAs (Decidable (_ ∧ _))

/-- A frame that lets the sender continue. -/
def Pdu.Clear (p : Pdu) : Prop := p.pci = 0x30 ∧ p.low = 0

/-- What a call leaves is owed to a reception, and what a poll emits goes to one. -/
def Live (x : Trace.Entry Link Event (Option (List UInt8))) : Prop :=
  Owed x.after ∧ ∀ now f, x.event = .poll now → (x.before.poll now).1 = some f → f.Clear →
    x.before.rx = .receiving

/-- The call hands the link a frame that outruns the flow control. -/
def OutrunBy (x : Trace.Entry Link Event (Option (List UInt8))) : Prop :=
  ∃ now p, x.event = .frame now p ∧ Outruns x.before now p

/-! ## What one frame does to the flow control -/

section
variable {l l' : Link} {now : UInt64} {p : Pdu}

theorem Owed.of_same (h : Owed l) (hs : SameRx l l') : Owed l' := by
  intro hf
  rw [hs.rx]
  exact h (hs.fcSend.symm.trans hf)

theorem owed_of_none (h : l.fcSend = false) : Owed l := by
  intro hf
  rw [h] at hf
  cases hf

/-- A consecutive frame keeps the flow control with its reception unless it outruns it. -/
theorem owed_onConsecutive (h : Owed l) (hp : p.pci = 0x20) :
    Owed (l.onConsecutive now p) ↔ ¬Outruns l now p := by
  simp only [Link.onConsecutive, Outruns]
  by_cases hexp : l.crExpired now
  · simp only [if_pos hexp, reduceCtorEq, false_and, if_false]
    simp [hexp, Owed]
  · simp only [if_neg hexp]
    cases hf : l.fcSend with
    | false =>
      refine ⟨fun _ => by simp, fun _ => ?_⟩
      split
      · rename_i hnext
        simp only [Link.inSequence]
        split
        · exact owed_of_none hf
        · split
          · intro _
            exact hnext.1
          · exact owed_of_none hf
      · split
        · exact owed_of_none rfl
        · exact h
    | true =>
      have hrx := h hf
      by_cases hsn : p.low = l.rxSn &&& 0x0F
      · rw [if_pos ⟨hrx, hsn⟩]
        simp only [Link.inSequence]
        by_cases hend : l.rxLen ≤ l.rxPos + min (l.rxLen - l.rxPos) 7
        · have hlast : l.rxLen - l.rxPos ≤ 7 := by omega
          rw [if_pos hend]
          simp [Owed, hf, hp, hexp, hlast]
        · have hmore : ¬l.rxLen - l.rxPos ≤ 7 := by omega
          rw [if_neg hend]
          split
          · simp [Owed, hrx, hsn, hmore]
          · simp [Owed, hrx, hsn, hmore]
      · rw [if_neg (fun hx => hsn hx.2), if_pos hrx]
        simp [Owed, hp, hexp, hsn]

theorem owed_onFrame (h : Owed l) : Owed (l.onFrame now p) ↔ ¬Outruns l now p := by
  by_cases hp : p.pci = 0x20
  · have heq : l.onFrame now p = l.onConsecutive now p := by
      simp [Link.onFrame, hp]
    rw [heq]
    exact owed_onConsecutive h hp
  · refine ⟨fun _ hx => hp hx.1, fun _ => ?_⟩
    simp only [Link.onFrame, if_neg hp]
    split
    · simp only [Link.onSingle]
      split
      · exact owed_of_none rfl
      · exact h
    split
    · simp only [Link.onFirst]
      split
      · intro _
        simp
      · split
        · exact owed_of_none rfl
        · exact h
    split
    · exact h.of_same (l.sameRx_onFlow now p)
    · exact h

theorem owed_tick (h : Owed l) : Owed (l.tick now) := by
  have hrx := h.of_same (l.sameRx_tickTx now)
  rw [Link.tick_eq, Link.tickRx]
  split
  · exact owed_of_none rfl
  · exact hrx

theorem owed_poll (h : Owed l) : Owed (l.poll now).2 := by
  simp only [Link.poll]
  split
  · exact h
  split
  · exact owed_of_none rfl
  split
  · exact h
  · exact h
  · exact h
  · dsimp only
    split
    · exact h
    · exact h
  · exact h.of_same (l.sameRx_pollCf now)

/-! ## What a poll emits -/

theorem pci_low_pdu (b : UInt8) (bytes : List UInt8) :
    (pdu (b :: bytes)).pci = b &&& 0xF0 ∧ (pdu (b :: bytes)).low = b &&& 0x0F := by
  simp [pdu, Pdu.pci, Pdu.low]

/-- The type of a first and of a consecutive frame, whatever the low half of its first byte. -/
theorem pci_or (x : UInt8) :
    (0x10 ||| (x &&& 0x0F)) &&& 0xF0 = (0x10 : UInt8) ∧
      (0x20 ||| (x &&& 0x0F)) &&& 0xF0 = (0x20 : UInt8) := by
  have hlow : x &&& 0x0F = UInt8.ofNat (x.toNat % 16) := by
    apply UInt8.toNat_inj.mp
    rw [UInt8.toNat_and, UInt8.toNat_ofNat', Nat.mod_eq_of_lt (by omega)]
    exact Nat.and_two_pow_sub_one_eq_mod _ 4
  have hall : ∀ i : Fin 16, (0x10 ||| UInt8.ofNat i) &&& 0xF0 = (0x10 : UInt8) ∧
      (0x20 ||| UInt8.ofNat i) &&& 0xF0 = (0x20 : UInt8) := by decide
  rw [hlow]
  exact hall ⟨x.toNat % 16, Nat.mod_lt _ (by decide)⟩

/-- Only the flow control that is owed lets the sender continue. -/
theorem owed_of_clear (htx : TxWithin l) {f : Pdu} (hpoll : (l.poll now).1 = some f)
    (hf : f.Clear) : l.fcSend = true := by
  by_contra hno
  revert hpoll
  simp only [Link.poll, Bool.not_eq_true _ ▸ hno, Bool.false_eq_true, if_false]
  split
  · rintro ⟨⟩
    exact absurd ((pci_low_pdu 0x32 []).2.symm.trans hf.2) (by decide)
  split
  · intro h
    cases h
  · rintro ⟨⟩
    rename_i hsf
    have hlen := htx.single hsf
    have hall : ∀ i : Fin 8, UInt8.ofNat i &&& 0xF0 = 0 := by decide
    have hpci := (pci_low_pdu _ _).1.symm.trans hf.1
    have hsmall : l.txLen.toUInt8 &&& 0xF0 = 0 := hall ⟨l.txLen, by omega⟩
    rw [hsmall] at hpci
    cases hpci
  · rintro ⟨⟩
    have hpci := (pci_low_pdu _ _).1.symm.trans hf.1
    rw [(pci_or _).1] at hpci
    exact absurd hpci (by decide)
  · intro h
    cases h
  · simp only [Link.pollCf]
    split
    · intro h
      cases h
    · have hcf : ∀ bytes, ¬(pdu ((0x20 ||| (l.txSn &&& 0x0F)) :: bytes)).Clear := by
        intro bytes hx
        have hpci := (pci_low_pdu _ _).1.symm.trans hx.1
        rw [(pci_or _).2] at hpci
        exact absurd hpci (by decide)
      split
      · rintro ⟨⟩
        exact hcf _ hf
      split
      · split
        · rintro ⟨⟩
          exact hcf _ hf
        · rintro ⟨⟩
          exact hcf _ hf
      · rintro ⟨⟩
        exact hcf _ hf

end

/-! ## Over a run -/

theorem live_step {l : Link} (h : Owed l) (htx : TxWithin l) (e : Event) :
    Live (Trace.entry step l e) ↔ ¬OutrunBy (Trace.entry step l e) := by
  have hemit : ∀ now f, (l.poll now).1 = some f → f.Clear → l.rx = .receiving := by
    intro now f hpoll hf
    exact h (owed_of_clear htx hpoll hf)
  have hlive : Live (Trace.entry step l e) ↔ Owed (step l e).1 :=
    ⟨fun hx => hx.1, fun hx => ⟨hx, fun now f _ hpoll hf => hemit now f hpoll hf⟩⟩
  rw [hlive]
  cases e with
  | frame now p =>
    rw [show (step l (.frame now p)).1 = l.onFrame now p from rfl, owed_onFrame h]
    constructor
    · rintro hno ⟨now', p', heq, hout⟩
      cases heq
      exact hno hout
    · intro hno hout
      exact hno ⟨now, p, rfl, hout⟩
  | poll now => exact ⟨fun _ => by simp [OutrunBy], fun _ => owed_poll h⟩
  | tick now => exact ⟨fun _ => by simp [OutrunBy], fun _ => owed_tick h⟩
  | take =>
    refine ⟨fun _ => by simp [OutrunBy], fun _ => ?_⟩
    simp only [step, Link.take]
    split
    · exact h
    · exact h
  | send src => exact ⟨fun _ => by simp [OutrunBy], fun _ => h.of_same (l.sameRx_send src)⟩
  | abortTx => exact ⟨fun _ => by simp [OutrunBy], fun _ => h⟩
  | abortRx => exact ⟨fun _ => by simp [OutrunBy], fun _ => owed_of_none rfl⟩

/-- In a run every flow control that lets a sender continue goes to a reception that waits for
frames, and is owed to none else, exactly when no consecutive frame ends a reception before its
flow control has gone out. -/
theorem flow_control_live_iff (bs stmin wftMax : UInt8) (nBsUs nCrUs : UInt64) (es : List Event) :
    (∀ x ∈ Trace.history step (fresh bs stmin wftMax nBsUs nCrUs) es, Live x) ↔
      ∀ x ∈ Trace.history step (fresh bs stmin wftMax nBsUs nCrUs) es, ¬OutrunBy x := by
  have hrun : ∀ cond : Trace.Entry Link Event (Option (List UInt8)) → Prop,
      (∀ l e, Owed l → TxWithin l → cond (Trace.entry step l e) → Owed (step l e).1) →
      ∀ es, (∀ x ∈ Trace.history step (fresh bs stmin wftMax nBsUs nCrUs) es, cond x) →
        Owed (Trace.final step (fresh bs stmin wftMax nBsUs nCrUs) es) ∧
          RxWithin (Trace.final step (fresh bs stmin wftMax nBsUs nCrUs) es) ∧
          TxWithin (Trace.final step (fresh bs stmin wftMax nBsUs nCrUs) es) := by
    intro cond hcond es hall
    obtain ⟨hrx, htx⟩ := within_fresh bs stmin wftMax nBsUs nCrUs
    refine Trace.run_induction_of cond (fun l _ => Owed l ∧ RxWithin l ∧ TxWithin l)
      ⟨owed_of_none rfl, hrx, htx⟩ ?_ es hall
    intro es e h hc
    exact ⟨hcond _ e h.1 h.2.2 hc, within_step h.2.1 h.2.2 e⟩
  induction es using List.reverseRecOn with
  | nil => simp
  | append_singleton es e ih =>
    rw [Trace.history_snoc]
    simp only [List.mem_append, List.mem_singleton, or_imp, forall_and, forall_eq]
    constructor
    · rintro ⟨hall, hlast⟩
      obtain ⟨howed, -, htx⟩ := hrun Live (fun l e _ _ hx => hx.1) es hall
      exact ⟨ih.mp hall, (live_step howed htx e).mp hlast⟩
    · rintro ⟨hall, hlast⟩
      obtain ⟨howed, -, htx⟩ := hrun Live (fun l e _ _ hx => hx.1) es (ih.mpr hall)
      exact ⟨ih.mpr hall, (live_step howed htx e).mpr hlast⟩

/-- A consecutive frame with the wrong number behind a first frame: the reception is over, and the
next poll still lets the sender continue. -/
theorem clears_no_reception :
    ¬∀ (bs stmin wftMax : UInt8) (nBsUs nCrUs : UInt64) (es : List Event),
      ∀ x ∈ Trace.history step (fresh bs stmin wftMax nBsUs nCrUs) es, Live x := by
  intro h
  have hlive := h 0 0 16 1000000 1000000
    [.frame 0 (pdu [0x10, 0x14, 0x36]), .frame 1 (pdu [0x22]), .poll 2]
  have hpoll := (hlive _ (List.mem_of_getElem? (i := 2) rfl)).2 2 (pdu [0x30, 0, 0]) rfl rfl
    (by constructor <;> decide)
  cases hpoll

end BloblyEmb.Isotp
