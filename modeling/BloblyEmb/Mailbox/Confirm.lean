import BloblyEmb.Mailbox.Protocol
import Mathlib.Tactic.Common

/-!
# What an acknowledgement confirms

An answer is reported sent once everything on the connection is acknowledged, which stands for it
only if it went out there. Every send says that it did, so a send of anything else may only follow
the answer.
-/
namespace BloblyEmb.Mailbox

abbrev Step := Trace.Entry World Event Label

/-! ## What a history shows -/

/-- The request came over a connection. -/
def Posted (hist : List Step) (seq : UInt32) (conn : ℕ) : Prop :=
  ∃ y ∈ hist, y.label = .posted seq conn

/-- The tester acknowledged it there. -/
def Acked (hist : List Step) (conn : ℕ) (item : Item) : Prop :=
  ∃ y ∈ hist, ∃ items, y.label = .acked conn items ∧ item ∈ items

/-- What holds of every step. -/
structure Confirmed (hist : List Step) (x : Step) : Prop where
  /-- An answer is reported once, after the tester of its request acknowledged it. -/
  answer : ∀ seq, x.label = .reported seq →
    (∃ conn, Posted hist seq conn ∧ Acked hist conn (.answer seq)) ∧
      ∀ y ∈ hist, y.label ≠ .reported seq
  /-- A push is reported once, for its own acknowledgement. -/
  push : ∀ seq, x.label = .pushReported seq →
    (∃ conn, Acked hist conn (.push seq)) ∧ ∀ y ∈ hist, y.label ≠ .pushReported seq
  withdrawn : ∀ y ∈ hist ++ [x], y.label ≠ .withdrawn x.after.m.served

/-- The numbers do not run out, and a send that does not carry the answer served last follows it, or
follows its report. -/
def Careful (x : Step) : Prop :=
  match x.event with
  | .post => x.before.m.posted ≠ 0xFFFFFFFF
  | .push => x.before.m.pushed ≠ 0xFFFFFFFF
  | .queue => x.before.thread = .sent (.answer x.before.m.served) ∨
      x.before.m.queued = x.before.m.served ∨ x.before.m.reported = x.before.m.served
  | _ => True

instance (x : Step) : Decidable (Careful x) := by
  unfold Careful
  split <;> infer_instance

/-! ## The invariant -/

structure Order (m : Mb) : Prop where
  served : m.served ≤ m.settled
  settled : m.settled ≤ m.posted
  queued : m.queued ≤ m.served
  reported : m.reported ≤ m.served
  pushTaken : m.pushTaken ≤ m.pushed
  pushQueued : m.pushQueued ≤ m.pushTaken
  pushReported : m.pushReported ≤ m.pushed

/-- A send that is acknowledged, is still to be, or died with the connection. -/
def Underway (link : Link) (hist : List Step) (item : Item) (conn : ℕ) : Prop :=
  Acked hist conn item ∨ link.tcp = .closed ∨ conn = link.number ∧ item ∈ link.inFlight

/-- A push that the thread of the connection has taken, and the server has not replaced. -/
def Taken (w : World) (seq : UInt32) : Prop :=
  w.m.pushed = seq ∧ w.m.pushTaken = seq ∧ w.m.pushQueued ≠ seq ∧ (w.pushOut = true ∨ w.gone = true)

def ThreadAt (w : World) (hist : List Step) : Thread → Prop
  | .waiting seq => w.m.posted = seq ∧ Posted hist seq w.link.number
  | .holding (.answer seq) => w.m.posted = seq ∧ w.m.served = seq ∧ Posted hist seq w.link.number
  | .sent (.answer seq) => w.m.posted = seq ∧ w.m.served = seq ∧
      ∃ conn, Posted hist seq conn ∧ Underway w.link hist (.answer seq) conn
  | .holding (.push seq) => Taken w seq
  | .sent (.push seq) | .pushQueueing seq =>
      Taken w seq ∧ ∃ conn, Underway w.link hist (.push seq) conn
  | _ => True

/-- What a label says of the counters after it. -/
def Past (m : Mb) : Label → Prop
  | .reported seq => seq ≤ m.reported
  | .pushReported seq => seq ≤ m.pushReported
  | .withdrawn seq => seq ≤ m.settled ∧ seq ≠ m.served
  | _ => True

structure Inv (w : World) (hist : List Step) : Prop where
  order : Order w.m
  closed : w.link.opened = false → w.link.tcp = .closed ∧ (∀ i, w.thread ≠ .sent i) ∧
    (∀ p, w.thread ≠ .pushQueueing p) ∧
    (w.thread ≠ .dropping → w.m.queued = 0 ∧ w.m.pushQueued = 0)
  settled : (∀ s, w.thread ≠ .waiting s) → w.m.settled = w.m.posted
  pushOut : w.m.pushTaken ≠ w.m.pushed → w.pushOut = true
  thread : ThreadAt w hist w.thread
  queued : w.m.queued = w.m.served → w.m.reported = w.m.served ∨
    ∃ conn, Posted hist w.m.served conn ∧ Underway w.link hist (.answer w.m.served) conn
  pushQueued : w.m.pushQueued = w.m.pushed → w.m.pushReported = w.m.pushed ∨
    ∃ conn, Underway w.link hist (.push w.m.pushed) conn
  past : ∀ y ∈ hist, Past w.m y.label

/-! ## What a longer history keeps -/

variable {w w' : World} {hist : List Step} {x : Step}

theorem Posted.snoc {seq : UInt32} {conn : ℕ} (h : Posted hist seq conn) (x : Step) :
    Posted (hist ++ [x]) seq conn := by
  obtain ⟨y, hy, hl⟩ := h
  exact ⟨y, List.mem_append_left _ hy, hl⟩

theorem Acked.snoc {item : Item} {conn : ℕ} (h : Acked hist conn item) (x : Step) :
    Acked (hist ++ [x]) conn item := by
  obtain ⟨y, hy, hl⟩ := h
  exact ⟨y, List.mem_append_left _ hy, hl⟩

theorem Underway.snoc {link : Link} {item : Item} {conn : ℕ} (h : Underway link hist item conn)
    (x : Step) : Underway link (hist ++ [x]) item conn :=
  h.imp_left fun ha => ha.snoc x

theorem ThreadAt.snoc {t : Thread} (h : ThreadAt w hist t) (x : Step) :
    ThreadAt w (hist ++ [x]) t := by
  cases t with
  | waiting seq => exact ⟨h.1, h.2.snoc x⟩
  | holding item =>
    cases item with
    | answer seq => exact ⟨h.1, h.2.1, h.2.2.snoc x⟩
    | _ => exact h
  | sent item =>
    cases item with
    | answer seq =>
      obtain ⟨hp, hs, conn, hposted, hu⟩ := h
      exact ⟨hp, hs, conn, hposted.snoc x, hu.snoc x⟩
    | push seq =>
      obtain ⟨ht, conn, hu⟩ := h
      exact ⟨ht, conn, hu.snoc x⟩
    | other => exact h
  | pushQueueing seq =>
    obtain ⟨ht, conn, hu⟩ := h
    exact ⟨ht, conn, hu.snoc x⟩
  | _ => exact h

theorem Inv.snoc (h : Inv w hist) (hx : Past w.m x.label) : Inv w (hist ++ [x]) where
  order := h.order
  closed := h.closed
  settled := h.settled
  pushOut := h.pushOut
  thread := h.thread.snoc x
  queued hq := (h.queued hq).imp_right fun ⟨conn, hp, hu⟩ => ⟨conn, hp.snoc x, hu.snoc x⟩
  pushQueued hq := (h.pushQueued hq).imp_right fun ⟨conn, hu⟩ => ⟨conn, hu.snoc x⟩
  past y hy := by
    rw [List.mem_append, List.mem_singleton] at hy
    rcases hy with hy | rfl
    · exact h.past y hy
    · exact hx

/-- The thread's place says the same of a state that agrees on what it names. -/
theorem ThreadAt.congr {t : Thread} (h : ThreadAt w hist t) (hposted : w'.m.posted = w.m.posted)
    (hserved : w'.m.served = w.m.served) (hnumber : w'.link.number = w.link.number)
    (htaken : ∀ seq, Taken w seq → Taken w' seq)
    (hu : ∀ item conn, Underway w.link hist item conn → Underway w'.link hist item conn) :
    ThreadAt w' hist t := by
  cases t with
  | waiting seq => exact ⟨hposted.trans h.1, hnumber ▸ h.2⟩
  | holding item =>
    cases item with
    | answer seq => exact ⟨hposted.trans h.1, hserved.trans h.2.1, hnumber ▸ h.2.2⟩
    | push seq => exact htaken seq h
    | other => trivial
  | sent item =>
    cases item with
    | answer seq =>
      obtain ⟨hp, hs, conn, hconn, hway⟩ := h
      exact ⟨hposted.trans hp, hserved.trans hs, conn, hconn, hu _ _ hway⟩
    | push seq => exact ⟨htaken seq h.1, h.2.imp fun conn => hu _ _⟩
    | other => trivial
  | pushQueueing seq => exact ⟨htaken seq h.1, h.2.imp fun conn => hu _ _⟩
  | idle => trivial
  | dropping => trivial

/-! ## The counters -/

theorem lt_succ {n : UInt32} (h : n ≠ 0xFFFFFFFF) : n < n + 1 := by
  have hn : n.toNat ≠ 0xFFFFFFFF := fun he => h (UInt32.toNat_inj.mp he)
  have hlt := n.toNat_lt
  rw [UInt32.lt_iff_toNat_lt, UInt32.toNat_add]
  simp
  omega

namespace Order

variable {m : Mb}

theorem post (h : Order m) (hmax : m.posted ≠ 0xFFFFFFFF) : Order m.post := by
  have hlt := lt_succ hmax
  obtain ⟨⟩ := h
  constructor <;> simp only [Mb.post] <;> grind

theorem push (h : Order m) (hmax : m.pushed ≠ 0xFFFFFFFF) : Order m.push := by
  have hlt := lt_succ hmax
  obtain ⟨⟩ := h
  constructor <;> simp only [Mb.push] <;> grind

theorem serve (h : Order m) : Order m.serve := by
  obtain ⟨⟩ := h
  constructor <;> simp only [Mb.serve] <;> grind

theorem withdraw (h : Order m) : Order (m.withdraw m.posted) := by
  obtain ⟨⟩ := h
  constructor <;> simp only [Mb.withdraw] <;> grind

theorem queue (h : Order m) : Order m.queue := by
  obtain ⟨⟩ := h
  constructor <;> simp only [Mb.queue] <;> grind

theorem pushQueue (h : Order m) : Order m.pushQueue := by
  obtain ⟨⟩ := h
  constructor <;> simp only [Mb.pushQueue] <;> grind

theorem drop (h : Order m) : Order m.drop := by
  obtain ⟨⟩ := h
  constructor <;> simp only [Mb.drop] <;> grind

theorem pushTake (h : Order m) : Order m.pushTake.2 := by
  obtain ⟨⟩ := h
  simp only [Mb.pushTake]
  split <;> constructor <;> grind

theorem droppedTake (h : Order m) : Order m.droppedTake.2 := by
  obtain ⟨⟩ := h
  simp only [Mb.droppedTake]
  split <;> constructor <;> grind

end Order

/-- What the server's question finds when the answer is yes. -/
theorem sentTake_spec {m : Mb} {state unacked : UInt32} (h : (m.sentTake state unacked).1 = true) :
    m.reported ≠ m.served ∧ m.queued = m.served ∧ Mb.drained state unacked = true ∧
      (m.sentTake state unacked).2 = { m with reported := m.served } := by
  simp only [Mb.sentTake] at h ⊢
  split at h
  · simp at h
  · rename_i hno
    grind

theorem pushSentTake_spec {m : Mb} {state unacked : UInt32}
    (h : (m.pushSentTake state unacked).1 = true) :
    m.pushReported ≠ m.pushed ∧ m.pushQueued = m.pushed ∧ Mb.drained state unacked = true ∧
      (m.pushSentTake state unacked).2 = { m with pushReported := m.pushed } := by
  simp only [Mb.pushSentTake] at h ⊢
  split at h
  · simp at h
  · rename_i hno
    grind

/-- Nothing is left on a connection that reads as drained. -/
theorem drained_spec (h : Mb.drained w.readState w.readUnacked = true) :
    w.link.tcp ≠ .closed ∧ w.link.inFlight = [] := by
  simp only [Mb.drained, World.readState, World.readUnacked] at h
  by_cases hopen : w.link.opened = true
  · by_cases hflight : w.link.inFlight = []
    · refine ⟨?_, hflight⟩
      intro htcp
      simp [hopen, hflight, htcp, Tcp.code, tcpClosed, tcpEstablished, tcpCloseWait] at h
    · simp [hopen, hflight] at h
  · simp [hopen, tcpClosed, tcpEstablished, tcpCloseWait] at h

/-- So what was on its way has been acknowledged. -/
theorem Underway.acked {item : Item} {conn : ℕ} (h : Underway w.link hist item conn)
    (hd : Mb.drained w.readState w.readUnacked = true) : Acked hist conn item := by
  obtain ⟨htcp, hflight⟩ := drained_spec hd
  rcases h with h | h | ⟨-, h⟩
  · exact h
  · exact absurd h htcp
  · simp [hflight] at h

/-! ## The thread of the connection -/

theorem inv_post (h : Inv w hist) (hmax : w.m.posted ≠ 0xFFFFFFFF)
    (hopen : w.link.opened = true) (hposted : Posted hist w.m.post.posted w.link.number) :
    Inv { w with m := w.m.post, thread := .waiting w.m.post.posted } hist := by
  have hlt := lt_succ hmax
  have ho := h.order.post hmax
  refine ⟨ho, ?_, ?_, h.pushOut, ⟨rfl, hposted⟩, h.queued, h.pushQueued, h.past⟩
  · simp [hopen]
  · intro hno
    exact absurd rfl (hno _)

theorem inv_collect (h : Inv w hist) {seq : UInt32} (ht : w.thread = .waiting seq)
    (hc : w.m.collect seq = true) : Inv { w with thread := .holding (.answer seq) } hist := by
  have hthread := h.thread
  rw [ht] at hthread
  have hserved : w.m.served = seq := by simpa [Mb.collect] using hc
  refine ⟨h.order, ?_, ?_, h.pushOut, ⟨hthread.1, hserved, hthread.2⟩, h.queued, h.pushQueued,
    h.past⟩
  · intro hopen
    have hclosed := h.closed hopen
    grind
  · intro _
    have hle := h.order.served
    have hle' := h.order.settled
    grind [ThreadAt]

theorem inv_withdraw (h : Inv w hist) {seq : UInt32} (ht : w.thread = .waiting seq) :
    Inv { w with m := w.m.withdraw seq, thread := .idle } hist := by
  have hthread := h.thread
  rw [ht] at hthread
  obtain ⟨rfl, -⟩ := hthread
  refine ⟨h.order.withdraw, ?_, fun _ => rfl, h.pushOut, trivial, h.queued, h.pushQueued, ?_⟩
  · intro hopen
    have hclosed := h.closed hopen
    grind [Mb.withdraw]
  · intro y hy
    have hpast := h.past y hy
    have hle := h.order.settled
    cases hl : y.label <;> grind [Past, Mb.withdraw]

theorem inv_pushTake (h : Inv w hist) (ht : w.thread = .idle) (hp : w.m.pushTake.1 = true) :
    Inv { w with m := w.m.pushTake.2, thread := .holding (.push w.m.pushTake.2.pushTaken) } hist := by
  have hne : w.m.pushTaken ≠ w.m.pushed := by
    intro heq
    simp [Mb.pushTake, heq] at hp
  have heq : w.m.pushTake.2 = { w.m with pushTaken := w.m.pushed } := by simp [Mb.pushTake, hne]
  have hout := h.pushOut hne
  have horder := h.order.pushTake
  have hle := h.order.pushQueued
  have hle' := h.order.pushTaken
  rw [heq] at horder ⊢
  refine ⟨horder, ?_, ?_, fun hno => absurd rfl hno, ⟨rfl, rfl, ?_, .inl hout⟩, h.queued,
    h.pushQueued, h.past⟩
  · intro hopen
    have hclosed := h.closed hopen
    grind
  · intro _
    exact h.settled (by simp [ht])
  · change w.m.pushQueued ≠ w.m.pushed
    grind

/-- The thread goes back to rest, or takes up what no rule watches. -/
theorem inv_rest (h : Inv w hist) {t : Thread} (ht : ∀ s, w.thread ≠ .waiting s)
    (hdrop : w.thread ≠ .dropping) (hrest : t = .idle ∨ t = .holding .other) :
    Inv { w with thread := t } hist := by
  refine ⟨h.order, ?_, fun _ => h.settled ht, h.pushOut, ?_, h.queued, h.pushQueued, h.past⟩
  · intro hopen
    have hclosed := h.closed hopen
    grind
  · rcases hrest with rfl | rfl <;> trivial

theorem inv_send (h : Inv w hist) {item : Item} (ht : w.thread = .holding item)
    (hopen : w.link.opened = true) :
    Inv { w with link := { w.link with inFlight := w.link.inFlight ++ [item] },
                 thread := .sent item } hist := by
  have hgrow : ∀ i conn, Underway w.link hist i conn →
      Underway { w.link with inFlight := w.link.inFlight ++ [item] } hist i conn := by
    intro i conn hu
    exact hu.imp_right (Or.imp_right fun hin => ⟨hin.1, List.mem_append_left _ hin.2⟩)
  have hthread := h.thread
  rw [ht] at hthread
  have hin : ∀ i, i = item →
      Underway { w.link with inFlight := w.link.inFlight ++ [item] } hist i w.link.number := by
    rintro i rfl
    exact .inr (.inr ⟨rfl, by simp⟩)
  refine ⟨h.order, ?_, fun _ => h.settled (by simp [ht]), h.pushOut, ?_, ?_, ?_, h.past⟩
  · simp [hopen]
  · cases item with
    | answer seq => exact ⟨hthread.1, hthread.2.1, _, hthread.2.2, hin _ rfl⟩
    | push seq => exact ⟨hthread, _, hin _ rfl⟩
    | other => trivial
  · intro hq
    exact (h.queued hq).imp_right fun ⟨conn, hp, hu⟩ => ⟨conn, hp, hgrow _ _ hu⟩
  · intro hq
    exact (h.pushQueued hq).imp_right fun ⟨conn, hu⟩ => ⟨conn, hgrow _ _ hu⟩

/-- A send says that the answer went out: it is the answer, or it follows it. -/
theorem inv_queue (h : Inv w hist) {item : Item} (ht : w.thread = .sent item)
    (hcare : w.thread = .sent (.answer w.m.served) ∨ w.m.queued = w.m.served ∨
      w.m.reported = w.m.served) :
    Inv { w with m := w.m.queue,
                 thread := match item with
                   | .push seq => .pushQueueing seq
                   | _ => .idle } hist := by
  have hthread := h.thread
  rw [ht] at hthread
  refine ⟨h.order.queue, ?_, fun _ => h.settled (by simp [ht]), h.pushOut, ?_, ?_, h.pushQueued,
    h.past⟩
  · intro hopen
    have hclosed := h.closed hopen
    grind
  · cases item with
    | push seq => exact hthread
    | _ => trivial
  · intro _
    rcases hcare with hanswer | hqueued | hreported
    · rw [hanswer, Thread.sent.injEq] at ht
      subst ht
      exact .inr hthread.2.2
    · exact h.queued hqueued
    · exact .inl hreported

theorem inv_pushQueue (h : Inv w hist) {seq : UInt32} (ht : w.thread = .pushQueueing seq) :
    Inv { w with m := w.m.pushQueue, thread := .idle } hist := by
  have hthread := h.thread
  rw [ht] at hthread
  obtain ⟨⟨hpushed, htaken, -, -⟩, hu⟩ := hthread
  refine ⟨h.order.pushQueue, ?_, fun _ => h.settled (by simp [ht]), h.pushOut, trivial, h.queued,
    ?_, h.past⟩
  · intro hopen
    have hclosed := h.closed hopen
    grind
  · intro _
    rw [← hpushed] at hu
    exact .inr hu

theorem inv_recycle (h : Inv w hist) (ht : ∀ s, w.thread ≠ .waiting s) :
    Inv { w with link := { w.link with opened := false, tcp := .closed, inFlight := [] },
                 thread := .dropping } hist := by
  refine ⟨h.order, ?_, fun _ => h.settled ht, h.pushOut, trivial, ?_, ?_, h.past⟩
  · intro _
    simp
  · intro hq
    exact (h.queued hq).imp_right fun ⟨conn, hp, _⟩ => ⟨conn, hp, .inr (.inl rfl)⟩
  · intro hq
    exact (h.pushQueued hq).imp_right fun ⟨conn, _⟩ => ⟨conn, .inr (.inl rfl)⟩

theorem inv_drop (h : Inv w hist) (ht : w.thread = .dropping) :
    Inv { w with m := w.m.drop, thread := .idle } hist := by
  have hle := h.order.reported
  have hle' := h.order.pushReported
  refine ⟨h.order.drop, ?_, fun _ => h.settled (by simp [ht]), ?_, trivial, ?_, ?_, ?_⟩
  · intro hopen
    have hclosed := h.closed hopen
    grind [Mb.drop]
  · intro hno
    exact absurd rfl hno
  · intro hq
    simp only [Mb.drop] at hq ⊢
    left
    grind
  · intro hq
    simp only [Mb.drop] at hq ⊢
    left
    grind
  · intro y hy
    exact h.past y hy

/-- A new connection: nothing of what was queued on the ones before stands. -/
theorem inv_connect (h : Inv w hist) (ht : w.thread = .idle) (hopen : w.link.opened = false) :
    Inv { w with link := { number := w.link.number + 1 } } hist := by
  obtain ⟨-, -, -, hzero⟩ := h.closed hopen
  obtain ⟨hq0, hp0⟩ := hzero (by simp [ht])
  have hle := h.order.reported
  have hle' := h.order.pushReported
  refine ⟨h.order, nofun, h.settled, h.pushOut, ?_, ?_, ?_, h.past⟩
  · rw [ht]
    trivial
  · intro hq
    left
    grind
  · intro hq
    left
    grind

/-! ## TCP -/

/-- The link changes; what was on its way still is, or is no longer asked about. -/
theorem inv_link (h : Inv w hist) {link : Link} (hopened : link.opened = w.link.opened)
    (hnumber : link.number = w.link.number)
    (hclosed : w.link.tcp = .closed → link.tcp = .closed)
    (hu : ∀ item conn, Underway w.link hist item conn → Underway link hist item conn) :
    Inv { w with link := link } hist := by
  refine ⟨h.order, ?_, h.settled, h.pushOut, ?_, ?_, ?_, h.past⟩
  · intro hopen
    obtain ⟨htcp, hrest⟩ := h.closed (hopened.symm.trans hopen)
    exact ⟨hclosed htcp, hrest⟩
  · exact h.thread.congr rfl rfl hnumber (fun _ ht => ht) hu
  · intro hq
    exact (h.queued hq).imp_right fun ⟨conn, hp, hway⟩ => ⟨conn, hp, hu _ _ hway⟩
  · intro hq
    exact (h.pushQueued hq).imp_right fun ⟨conn, hway⟩ => ⟨conn, hu _ _ hway⟩

theorem inv_acknowledge (h : Inv w hist) (n : ℕ)
    (hacked : ∀ item ∈ w.link.inFlight.take n, Acked hist w.link.number item) :
    Inv { w with link := { w.link with inFlight := w.link.inFlight.drop n } } hist := by
  refine inv_link h rfl rfl id ?_
  rintro item conn (ha | hclosed | ⟨rfl, hin⟩)
  · exact .inl ha
  · exact .inr (.inl hclosed)
  · rw [← List.take_append_drop n w.link.inFlight, List.mem_append] at hin
    rcases hin with hin | hin
    · exact .inl (hacked item hin)
    · exact .inr (.inr ⟨rfl, hin⟩)

theorem inv_finish (h : Inv w hist) (htcp : w.link.tcp = .established) :
    Inv { w with link := { w.link with tcp := .closeWait } } hist := by
  refine inv_link h rfl rfl (by simp [htcp]) ?_
  rintro item conn (ha | hclosed | hin)
  · exact .inl ha
  · simp [htcp] at hclosed
  · exact .inr (.inr hin)

theorem inv_reset (h : Inv w hist) :
    Inv { w with link := { w.link with tcp := .closed, inFlight := [] } } hist :=
  inv_link h rfl rfl (fun _ => rfl) fun _ _ _ => .inr (.inl rfl)

/-! ## The thread of the server -/

theorem inv_serve (h : Inv w hist) (hw : w.m.waiting = true) :
    Inv { w with m := w.m.serve, gone := false } hist := by
  have hne : w.m.settled ≠ w.m.posted := by simpa [Mb.waiting] using hw
  have hsettled := h.order.settled
  have hserved := h.order.served
  have hqueued := h.order.queued
  have hthread := h.thread
  obtain ⟨seq, ht⟩ : ∃ s, w.thread = .waiting s := by
    by_contra hno
    exact hne (h.settled fun s hs => hno ⟨s, hs⟩)
  rw [ht] at hthread
  refine ⟨h.order.serve, ?_, fun _ => rfl, h.pushOut, ?_, ?_, h.pushQueued, ?_⟩
  · intro hopen
    exact h.closed hopen
  · rw [ht]
    exact hthread
  · intro hq
    simp only [Mb.serve] at hq
    grind
  · intro y hy
    have hpast := h.past y hy
    cases hl : y.label <;> grind [Past, Mb.serve]

theorem inv_push (h : Inv w hist) (hmax : w.m.pushed ≠ 0xFFFFFFFF) (hout : w.pushOut = false)
    (hgone : w.gone = false) : Inv { w with m := w.m.push, pushOut := true } hist := by
  have hlt := lt_succ hmax
  have hle := h.order.pushTaken
  have hle' := h.order.pushQueued
  have hfree : ∀ seq, ¬Taken w seq := by
    rintro seq ⟨-, -, -, ho | hg⟩
    · simp [hout] at ho
    · simp [hgone] at hg
  refine ⟨h.order.push hmax, h.closed, h.settled, fun _ => rfl, ?_, h.queued, ?_, h.past⟩
  · exact h.thread.congr rfl rfl rfl (fun seq ht => absurd ht (hfree seq)) fun _ _ hway => hway
  · intro hq
    simp only [Mb.push] at hq
    grind

theorem inv_sentTake (h : Inv w hist) :
    Inv { w with m := { w.m with reported := w.m.served } } hist := by
  have hle := h.order.reported
  obtain ⟨hserved, hsettled, hqueued, -, hpt, hpq, hpr⟩ := h.order
  refine ⟨⟨hserved, hsettled, hqueued, UInt32.le_refl _, hpt, hpq, hpr⟩, h.closed, h.settled,
    h.pushOut, h.thread, fun _ => .inl rfl, h.pushQueued, ?_⟩
  intro y hy
  have hpast := h.past y hy
  cases hl : y.label <;> grind [Past]

theorem inv_pushSentTake (h : Inv w hist) (hq : w.m.pushQueued = w.m.pushed) :
    Inv { w with m := { w.m with pushReported := w.m.pushed }, pushOut := false } hist := by
  have hle := h.order.pushReported
  have hthread := h.thread
  obtain ⟨hserved, hsettled, hqueued, hreported, hpt, hpq, -⟩ := h.order
  have hfree : ∀ seq, ¬Taken w seq := by
    rintro seq ⟨hpushed, -, hne, -⟩
    exact hne (hq.trans hpushed)
  refine ⟨⟨hserved, hsettled, hqueued, hreported, hpt, hpq, UInt32.le_refl _⟩, h.closed,
    h.settled, ?_, ?_, h.queued, fun _ => .inl rfl, ?_⟩
  · intro hne
    simp only at hne
    grind
  · exact hthread.congr rfl rfl rfl (fun seq ht => absurd ht (hfree seq)) fun _ _ hway => hway
  · intro y hy
    have hpast := h.past y hy
    cases hl : y.label <;> grind [Past]

theorem inv_droppedTake (h : Inv w hist) {m : Mb}
    (hm : m = { w.m with dropsSeen := w.m.drops, pushTaken := w.m.pushed }) :
    Inv { w with m := m, pushOut := false, gone := true } hist := by
  subst hm
  have hthread := h.thread
  have hpt := h.order.pushTaken
  obtain ⟨hserved, hsettled, hqueued, hreported, -, hpq, hpr⟩ := h.order
  refine ⟨⟨hserved, hsettled, hqueued, hreported, UInt32.le_refl _, UInt32.le_trans hpq hpt, hpr⟩,
    h.closed, h.settled, fun hno => absurd rfl hno, ?_, h.queued, h.pushQueued, h.past⟩
  refine hthread.congr rfl rfl rfl ?_ fun _ _ hway => hway
  rintro seq ⟨hpushed, -, hne, -⟩
  exact ⟨hpushed, hpushed, hne, .inr rfl⟩

/-- The rest of a drop's question is about what no rule here reads. -/
theorem inv_dropsSeen (h : Inv w hist) :
    Inv { w with m := { w.m with dropsSeen := w.m.drops } } hist := by
  obtain ⟨⟨hserved, hsettled, hqueued, hreported, hpt, hpq, hpr⟩, hclosed, hset, hout, hthread, hq,
    hp, hpast⟩ := h
  refine ⟨⟨hserved, hsettled, hqueued, hreported, hpt, hpq, hpr⟩, hclosed, hset, hout, ?_, hq, hp,
    hpast⟩
  exact hthread.congr rfl rfl rfl (fun _ ht => ht) fun _ _ hway => hway

/-! ## One step -/

theorem inv_stepThread (h : Inv w hist) {e : Event} (hx : x.label = (w.stepThread e).2)
    (hc : Careful ⟨w, e, x.label, x.after⟩) : Inv (w.stepThread e).1 (hist ++ [x]) := by
  have hquiet : x.label = .quiet → Inv w (hist ++ [x]) := by
    intro hl
    exact h.snoc (by simp [hl, Past])
  cases e with
  | post =>
    simp only [World.stepThread] at hx ⊢
    split at hx
    · rename_i hgo
      rw [if_pos hgo]
      have hposted : Posted (hist ++ [x]) w.m.post.posted w.link.number := ⟨x, by simp, hx⟩
      exact inv_post (h.snoc (by simp [hx, Past])) hc hgo.2 hposted
    · rename_i hno
      rw [if_neg hno]
      exact hquiet hx
  | collect =>
    simp only [World.stepThread] at hx ⊢
    cases ht : w.thread with
    | waiting seq =>
      simp only [ht] at hx ⊢
      by_cases hcoll : w.m.collect seq = true
      · simp only [hcoll, if_true] at hx ⊢
        exact inv_collect (hquiet hx) ht hcoll
      · simp only [hcoll] at hx ⊢
        exact hquiet hx
    | _ =>
      simp only [ht] at hx ⊢
      exact hquiet hx
  | withdraw =>
    simp only [World.stepThread] at hx ⊢
    cases ht : w.thread with
    | waiting seq =>
      simp only [ht] at hx ⊢
      by_cases hcoll : w.m.collect seq = true
      · simp only [hcoll, if_true] at hx ⊢
        exact hquiet hx
      · simp only [hcoll] at hx ⊢
        refine (inv_withdraw h ht).snoc ?_
        have hne : seq ≠ w.m.served := by
          rintro rfl
          exact hcoll (by simp [Mb.collect])
        rw [hx]
        exact ⟨UInt32.le_refl _, hne⟩
    | _ =>
      simp only [ht] at hx ⊢
      exact hquiet hx
  | pushTake =>
    simp only [World.stepThread] at hx ⊢
    split at hx
    · rename_i hgo
      rw [if_pos hgo]
      exact inv_pushTake (hquiet hx) hgo.1 hgo.2
    · rename_i hno
      rw [if_neg hno]
      exact hquiet hx
  | compose =>
    simp only [World.stepThread] at hx ⊢
    split at hx
    · rename_i hgo
      rw [if_pos hgo]
      exact inv_rest (hquiet hx) (by simp [hgo.1]) (by simp [hgo.1]) (.inr rfl)
    · rename_i hno
      rw [if_neg hno]
      exact hquiet hx
  | discard =>
    simp only [World.stepThread] at hx ⊢
    cases ht : w.thread with
    | holding item =>
      simp only [ht] at hx ⊢
      exact inv_rest (hquiet hx) (by simp [ht]) (by simp [ht]) (.inl rfl)
    | _ =>
      simp only [ht] at hx ⊢
      exact hquiet hx
  | send =>
    simp only [World.stepThread] at hx ⊢
    cases ht : w.thread with
    | holding item =>
      simp only [ht] at hx ⊢
      split at hx
      · rename_i hgo
        rw [if_pos hgo]
        exact inv_send (hquiet hx) ht hgo.1
      · rename_i hno
        rw [if_neg hno]
        exact hquiet hx
    | _ =>
      simp only [ht] at hx ⊢
      exact hquiet hx
  | queue =>
    simp only [World.stepThread] at hx ⊢
    cases ht : w.thread with
    | sent item =>
      have hq := fun hl => inv_queue (hquiet hl) ht hc
      cases item <;> simp only [ht] at hx ⊢ <;> exact hq hx
    | _ =>
      simp only [ht] at hx ⊢
      exact hquiet hx
  | pushQueue =>
    simp only [World.stepThread] at hx ⊢
    cases ht : w.thread with
    | pushQueueing seq =>
      simp only [ht] at hx ⊢
      exact inv_pushQueue (hquiet hx) ht
    | _ =>
      simp only [ht] at hx ⊢
      exact hquiet hx
  | recycle =>
    simp only [World.stepThread] at hx ⊢
    cases ht : w.thread with
    | idle | holding item =>
      simp only [ht] at hx ⊢
      split at hx
      · rename_i hgo
        rw [if_pos hgo]
        exact inv_recycle (hquiet hx) (by simp [ht])
      · rename_i hno
        rw [if_neg hno]
        exact hquiet hx
    | _ =>
      simp only [ht] at hx ⊢
      exact hquiet hx
  | drop =>
    simp only [World.stepThread] at hx ⊢
    cases ht : w.thread with
    | dropping =>
      simp only [ht] at hx ⊢
      exact inv_drop (hquiet hx) ht
    | _ =>
      simp only [ht] at hx ⊢
      exact hquiet hx
  | connect =>
    simp only [World.stepThread] at hx ⊢
    split at hx
    · rename_i hgo
      rw [if_pos hgo]
      exact inv_connect (hquiet hx) hgo.1 hgo.2
    · rename_i hno
      rw [if_neg hno]
      exact hquiet hx
  | _ => exact hquiet hx

theorem inv_stepTcp (h : Inv w hist) {e : Event} (hx : x.label = (w.stepTcp e).2) :
    Inv (w.stepTcp e).1 (hist ++ [x]) := by
  have hquiet : x.label = .quiet → Inv w (hist ++ [x]) := by
    intro hl
    exact h.snoc (by simp [hl, Past])
  cases e with
  | acknowledge n =>
    simp only [World.stepTcp] at hx ⊢
    split at hx
    · rename_i hclosed
      rw [if_pos hclosed]
      exact hquiet hx
    · rename_i hopen
      rw [if_neg hopen]
      refine inv_acknowledge (h.snoc (by simp [hx, Past])) n ?_
      intro item hitem
      exact ⟨x, by simp, _, hx, hitem⟩
  | finish =>
    simp only [World.stepTcp] at hx ⊢
    split at hx
    · rename_i hgo
      rw [if_pos hgo]
      exact inv_finish (hquiet hx) hgo
    · rename_i hno
      rw [if_neg hno]
      exact hquiet hx
  | reset => exact inv_reset (hquiet hx)
  | _ => exact hquiet hx

theorem inv_stepServer (h : Inv w hist) {e : Event} (hx : x.label = (w.stepServer e).2)
    (hc : Careful ⟨w, e, x.label, x.after⟩) : Inv (w.stepServer e).1 (hist ++ [x]) := by
  have hquiet : x.label = .quiet → Inv w (hist ++ [x]) := by
    intro hl
    exact h.snoc (by simp [hl, Past])
  cases e with
  | serve =>
    simp only [World.stepServer] at hx ⊢
    split at hx
    · rename_i hgo
      rw [if_pos hgo]
      exact (inv_serve h hgo).snoc (by simp [hx, Past])
    · rename_i hno
      rw [if_neg hno]
      exact hquiet hx
  | push =>
    simp only [World.stepServer] at hx ⊢
    split at hx
    · rename_i hgo
      rw [if_pos hgo]
      exact inv_push (hquiet hx) hc hgo.1 hgo.2
    · rename_i hno
      rw [if_neg hno]
      exact hquiet hx
  | sentTake =>
    simp only [World.stepServer] at hx ⊢
    split at hx
    · rename_i htaken
      obtain ⟨-, -, -, hm⟩ := sentTake_spec htaken
      rw [hm] at hx ⊢
      exact (inv_sentTake h).snoc (by simp [hx, Past])
    · rename_i hno
      have hm : (w.m.sentTake w.readState w.readUnacked).2 = w.m := by
        simp only [Mb.sentTake] at hno ⊢
        split <;> simp_all
      rw [hm]
      exact hquiet hx
  | pushSentTake =>
    simp only [World.stepServer] at hx ⊢
    split at hx
    · rename_i htaken
      rw [if_pos htaken]
      obtain ⟨-, hq, -, hm⟩ := pushSentTake_spec htaken
      rw [hm] at hx ⊢
      exact (inv_pushSentTake h hq).snoc (by simp [hx, Past])
    · rename_i hno
      rw [if_neg hno]
      exact hquiet hx
  | droppedTake =>
    simp only [World.stepServer, Mb.droppedTake] at hx ⊢
    by_cases hgo : w.m.drops ≠ w.m.dropsSeen ∧ w.m.served ≤ w.m.dropAfter
    · simp only [if_pos hgo, if_true] at hx ⊢
      exact inv_droppedTake (hquiet hx) rfl
    · simp only [if_neg hgo] at hx ⊢
      exact inv_dropsSeen (hquiet hx)
  | _ => exact hquiet hx

theorem inv_step (h : Inv w hist) {e : Event} (hc : Careful (Trace.entry World.step w e)) :
    Inv (w.step e).1 (hist ++ [Trace.entry World.step w e]) := by
  cases e with
  | acknowledge | finish | reset => exact inv_stepTcp h rfl
  | serve | push | sentTake | pushSentTake | droppedTake => exact inv_stepServer h rfl hc
  | _ => exact inv_stepThread h rfl hc

/-! ## What is reported -/

theorem reported_spec {e : Event} {seq : UInt32} (hl : (w.step e).2 = .reported seq) :
    (w.m.sentTake w.readState w.readUnacked).1 = true ∧ seq = w.m.served := by
  cases e with
  | sentTake =>
    simp only [World.step, World.stepServer] at hl
    split at hl
    · rename_i htaken
      obtain ⟨-, -, -, hm⟩ := sentTake_spec htaken
      rw [hm] at hl
      exact ⟨htaken, (Label.reported.inj hl).symm⟩
    · simp at hl
  | _ => grind [World.step, World.stepServer, World.stepTcp, World.stepThread]

theorem pushReported_spec {e : Event} {seq : UInt32} (hl : (w.step e).2 = .pushReported seq) :
    (w.m.pushSentTake w.readState w.readUnacked).1 = true ∧ seq = w.m.pushed := by
  cases e with
  | pushSentTake =>
    simp only [World.step, World.stepServer] at hl
    split at hl
    · rename_i htaken
      obtain ⟨-, -, -, hm⟩ := pushSentTake_spec htaken
      rw [hm] at hl
      exact ⟨htaken, (Label.pushReported.inj hl).symm⟩
    · simp at hl
  | _ => grind [World.step, World.stepServer, World.stepTcp, World.stepThread]

theorem confirmed_step (h : Inv w hist) {e : Event} (hc : Careful (Trace.entry World.step w e)) :
    Confirmed hist (Trace.entry World.step w e) := by
  refine ⟨?_, ?_, ?_⟩
  · intro seq hl
    obtain ⟨htaken, rfl⟩ := reported_spec hl
    obtain ⟨hne, hq, hdrained, -⟩ := sentTake_spec htaken
    obtain ⟨conn, hposted, hway⟩ := (h.queued hq).resolve_left hne
    refine ⟨⟨conn, hposted, hway.acked hdrained⟩, ?_⟩
    intro y hy hly
    have hpast := h.past y hy
    have hle := h.order.reported
    grind [Past]
  · intro seq hl
    obtain ⟨htaken, rfl⟩ := pushReported_spec hl
    obtain ⟨hne, hq, hdrained, -⟩ := pushSentTake_spec htaken
    obtain ⟨conn, hway⟩ := (h.pushQueued hq).resolve_left hne
    refine ⟨⟨conn, hway.acked hdrained⟩, ?_⟩
    intro y hy hly
    have hpast := h.past y hy
    have hle := h.order.pushReported
    grind [Past]
  · intro y hy hly
    have hpast := (inv_step h hc).past y hy
    rw [hly] at hpast
    exact hpast.2 rfl

theorem inv_start : Inv {} [] where
  order := by constructor <;> decide
  closed := nofun
  settled _ := rfl
  pushOut := by decide
  thread := trivial
  queued _ := .inl rfl
  pushQueued _ := .inl rfl
  past := by simp

/-- In every run whose sends are careful. -/
theorem confirmed_of_careful (es : List Event)
    (hc : ∀ x ∈ Trace.history World.step {} es, Careful x) :
    Trace.Along Confirmed (Trace.history World.step {} es) := by
  have hcond : Trace.Along (fun _ x => Careful x) (Trace.history World.step {} es) :=
    Trace.along_of_forall fun x hx _ => hc x hx
  exact (Trace.run_along inv_start (fun es e h hx => ⟨inv_step h hx, confirmed_step h hx⟩) es
    hcond).2

/-- A request, its answer, and a push after it. -/
def benchExchange : List Event :=
  [.post, .serve, .collect, .send, .queue, .sentTake, .acknowledge 1, .sentTake, .push, .pushTake,
    .send, .queue, .pushQueue, .acknowledge 1, .sentTake, .pushSentTake]

theorem confirmed_of_careful_bench :
    Trace.Along Confirmed (Trace.history World.step {} benchExchange) ∧
      (Trace.history World.step {} benchExchange).map (·.label) =
        [.posted 1 1, .served 1, .quiet, .quiet, .quiet, .quiet, .acked 1 [.answer 1], .reported 1,
          .quiet, .quiet, .quiet, .quiet, .quiet, .acked 1 [.push 1], .quiet, .pushReported 1] :=
  ⟨confirmed_of_careful benchExchange (by decide), by decide⟩

/-- The tester resets before its answer leaves; the next one activates routing, and acknowledges
that. -/
def benchActivation : List Event :=
  [.post, .serve, .collect, .reset, .recycle, .drop, .connect, .compose, .send, .queue,
    .acknowledge 1]

def Label.items : Label → List Item
  | .acked _ items => items
  | _ => []

/-- The answer that died is reported sent. -/
theorem activation_confirms_dead_answer :
    ¬Trace.Along Confirmed (Trace.history World.step {} (benchActivation ++ [.sentTake])) := by
  intro h
  obtain ⟨⟨conn, -, y, hy, items, hl, hin⟩, -⟩ :=
    (h _ _ [] (Trace.history_snoc benchActivation .sentTake)).answer 1 (by decide)
  have hnone : ∀ y ∈ Trace.history World.step {} benchActivation,
      Item.answer 1 ∉ y.label.items := by decide
  have hno := hnone y hy
  rw [hl] at hno
  exact hno hin

end BloblyEmb.Mailbox
