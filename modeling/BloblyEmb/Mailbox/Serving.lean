import BloblyEmb.Mailbox.Protocol
import Mathlib.Algebra.Order.Ring.Nat
import Mathlib.Data.Nat.Basic

/-!
# Serving the mailbox

The share of the server's thread in a pass (`serve_mailbox`): the answer that was acknowledged, the
connection that dropped, then the request that waits. The server is a parameter, since the
application and the bootloader are served by the same function. Beside the machine stand the true
counts of what the mailbox counts in 32-bit words, and the connection over which each grant that the
server holds was obtained.
-/
namespace BloblyEmb.Serving
open Mailbox (World)

/-- What a request can be served under. -/
inductive Grant where
  | session
  | unlock
  /-- A seed or a challenge that waits for its key. -/
  | exchange
deriving DecidableEq

/-- A server of network requests. `β` is what serving a request depends on besides the request, and
`α` are the calls that are not the mailbox's. -/
structure Server (σ α β : Type) where
  serveRemote : σ → List UInt8 → Bool → β → σ
  remoteSent : σ → σ
  remoteDropped : σ → σ
  other : σ → α → σ
  /-- The grants in force, each with the number of its entry: while the number stays it is the same
  grant. -/
  held : σ → Grant → Option ℕ

/-- The true counts. -/
structure Tally where
  posts : ℕ := 0
  /-- The requests posted when the last one was served, and when the last connection dropped. -/
  served : ℕ := 0
  dropped : ℕ := 0
  drops : ℕ := 0
  /-- The drops before the last pass. -/
  seen : ℕ := 0
deriving DecidableEq

/-- An answer to an older request is not taken for that of the last one posted. -/
def Tally.Fresh (t : Tally) : Prop := t.served = t.posts ∨ ¬2 ^ 32 ∣ t.posts - t.served
deriving Decidable

/-- The words tell the drops since the last pass, and that no request was served after them. -/
def Tally.Telling (t : Tally) : Prop :=
  ¬2 ^ 32 ∣ t.drops - t.seen ∧ t.served % 2 ^ 32 ≤ t.dropped % 2 ^ 32
deriving Decidable

structure System (σ : Type) where
  world : World := {}
  server : σ
  /-- What was posted last: the request, whether it is functional, and the connection it came over. -/
  request : List UInt8 := []
  functional : Bool := false
  asker : ℕ := 0
  tally : Tally := {}
  /-- The connection over which a grant in force was obtained. -/
  origin : Grant → Option ℕ := fun _ => none
  /-- A connection over which a grant in force was obtained dropped, and the server was not told. -/
  owed : Bool := false

inductive Event (α β : Type) where
  /-- A step of the thread of the connection or of TCP, or of the server with its pushes; `req` is
  what a post would carry. -/
  | mailbox (e : Mailbox.Event) (req : List UInt8) (functional : Bool)
  | pass (x : β)
  | other (a : α)

variable {σ α β : Type}

/-- The origins after the server went from `s` to `s'`: a grant with a new entry was obtained over
`k`. -/
def Server.traced (S : Server σ α β) (s s' : σ) (k : Option ℕ) (origin : Grant → Option ℕ)
    (g : Grant) : Option ℕ :=
  if S.held s' g = none then none else if S.held s' g = S.held s g then origin g else k

namespace System

/-- The server moves by itself, or for the connection `k`. -/
def moveTo (S : Server σ α β) (s : System σ) (k : Option ℕ) (server : σ) : System σ :=
  { s with server := server, origin := S.traced s.server server k s.origin }

/-- The answer that was acknowledged. -/
def takeSent (S : Server σ α β) (s : System σ) : System σ :=
  let taken := s.world.m.sentTake s.world.readState s.world.readUnacked
  let s := { s with world := (s.world.stepServer .sentTake).1 }
  if taken.1 then s.moveTo S none (S.remoteSent s.server) else s

/-- The connection that dropped. -/
def takeDropped (S : Server σ α β) (s : System σ) : System σ :=
  let taken := s.world.m.droppedTake
  let s := { s with
    world := (s.world.stepServer .droppedTake).1
    tally := { s.tally with seen := s.tally.drops } }
  if taken.1 then { s.moveTo S none (S.remoteDropped s.server) with owed := false } else s

/-- The request that waits is served and answered. -/
def serve (S : Server σ α β) (s : System σ) (x : β) : System σ :=
  let server := S.serveRemote s.server s.request s.functional x
  { s.moveTo S (some s.asker) server with
    world := (s.world.stepServer .serve).1
    tally := { s.tally with served := s.tally.posts } }

/-- One pass; the result tells in which state a request was served. -/
def pass (S : Server σ α β) (s : System σ) (x : β) : System σ × Option (System σ) :=
  let s := (s.takeSent S).takeDropped S
  if s.world.m.waiting then (s.serve S x, some s) else (s, none)

/-- A step of the mailbox that is not the pass's. -/
def mailbox (s : System σ) (e : Mailbox.Event) (req : List UInt8) (functional : Bool) : System σ :=
  let moved := s.world.step e
  match e with
  | .serve | .sentTake | .droppedTake => s
  | .post =>
    match moved.2 with
    | .posted _ conn => { s with
        world := moved.1
        request := req
        functional := functional
        asker := conn
        tally := { s.tally with posts := s.tally.posts + 1 } }
    | _ => s
  | .drop =>
    if s.world.thread = .dropping then { s with
      world := moved.1
      tally := { s.tally with dropped := s.tally.posts, drops := s.tally.drops + 1 }
      owed := s.owed || (s.origin .session).isSome || (s.origin .unlock).isSome ||
        (s.origin .exchange).isSome }
    else s
  | _ => { s with world := moved.1 }

def step (S : Server σ α β) (s : System σ) : Event α β → System σ × Option (System σ)
  | .mailbox e req functional => (s.mailbox e req functional, none)
  | .pass x => s.pass S x
  | .other a => (s.moveTo S none (S.other s.server a), none)

end System

/-- The thread waits for the answer to its request. -/
def awaits : Mailbox.Thread → Bool
  | .waiting _ => true
  | _ => false

/-- The condition on a step. When the thread asks for the answer to its request, no answer is taken
for another's; and when a pass owes the server a drop, the words of the mailbox tell it. -/
def Clear (x : Trace.Entry (System σ) (Event α β) (Option (System σ))) : Prop :=
  match x.event with
  | .mailbox .collect _ _ => awaits x.before.world.thread = true → x.before.tally.Fresh
  | .pass _ => x.before.owed = true → x.before.tally.Telling
  | _ => True

instance : DecidablePred (Clear (σ := σ) (α := α) (β := β)) := by
  intro x
  unfold Clear
  split <;> infer_instance

/-- Every request that is served finds the server told of the drops, and is served under nothing
that was obtained over another connection. -/
def Isolated (x : Trace.Entry (System σ) (Event α β) (Option (System σ))) : Prop :=
  ∀ s ∈ x.label, s.owed = false ∧ ∀ g j, s.origin g = some j → j = s.asker

/-! ## What the server has to keep -/

/-- The server knows which grants are the network's (`Mine`), and a dropped connection ends those. -/
structure Ends (S : Server σ α β) (I : σ → Prop) (Mine : σ → Grant → Prop) : Prop where
  serve_inv {s : σ} (h : I s) (req : List UInt8) (f : Bool) (x : β) : I (S.serveRemote s req f x)
  sent_inv {s : σ} (h : I s) : I (S.remoteSent s)
  dropped_inv {s : σ} (h : I s) : I (S.remoteDropped s)
  other_inv {s : σ} (h : I s) (a : α) : I (S.other s a)
  /-- What a request obtains is the network's. -/
  gained {s : σ} (h : I s) (req : List UInt8) (f : Bool) (x : β) {g : Grant}
    (hheld : S.held (S.serveRemote s req f x) g ≠ none)
    (hnew : S.held (S.serveRemote s req f x) g ≠ S.held s g) : Mine (S.serveRemote s req f x) g
  /-- A grant that stays keeps its owner. -/
  served {s : σ} (h : I s) (req : List UInt8) (f : Bool) (x : β) {g : Grant} (hmine : Mine s g)
    (hheld : S.held (S.serveRemote s req f x) g ≠ none)
    (hsame : S.held (S.serveRemote s req f x) g = S.held s g) : Mine (S.serveRemote s req f x) g
  sent {s : σ} (h : I s) {g : Grant} (hmine : Mine s g) (hheld : S.held (S.remoteSent s) g ≠ none)
    (hsame : S.held (S.remoteSent s) g = S.held s g) : Mine (S.remoteSent s) g
  moved {s : σ} (h : I s) (a : α) {g : Grant} (hmine : Mine s g)
    (hheld : S.held (S.other s a) g ≠ none)
    (hsame : S.held (S.other s a) g = S.held s g) : Mine (S.other s a) g
  dropped {s : σ} (h : I s) {g : Grant} (hmine : Mine s g)
    (hheld : S.held (S.remoteDropped s) g ≠ none) : S.held (S.remoteDropped s) g ≠ S.held s g

/-! ## What holds along a run -/

/-- The request of a thread that waits is the last one posted, over the connection that is open; it
was answered, or it is the one request that waits. -/
def Asked (s : System σ) : Prop :=
  match s.world.thread with
  | .waiting seq =>
    seq = s.world.m.posted ∧ s.world.link.opened = true ∧ s.asker = s.world.link.number ∧
      (s.world.m.settled = s.world.m.posted ∨ s.tally.served < s.tally.posts)
  | _ => s.world.m.settled = s.world.m.posted

/-- The words of the mailbox are the counts modulo `2 ^ 32`. -/
structure Counts (s : System σ) : Prop where
  posted : s.world.m.posted = UInt32.ofNat s.tally.posts
  served : s.world.m.served = UInt32.ofNat s.tally.served
  dropAfter : s.world.m.dropAfter = UInt32.ofNat s.tally.dropped
  drops : s.world.m.drops = UInt32.ofNat s.tally.drops
  dropsSeen : s.world.m.dropsSeen = UInt32.ofNat s.tally.seen
  served_le : s.tally.served ≤ s.tally.posts
  seen_le : s.tally.seen ≤ s.tally.drops

/-- Between the drop of a connection and the pass that reports it, the drop is owed. -/
structure Safe (I : σ → Prop) (Mine : σ → Grant → Prop) (s : System σ) : Prop where
  counts : Counts s
  asked : Asked s
  inv : I s.server
  mine : ∀ g j, s.origin g = some j → Mine s.server g
  here : s.owed = false → ∀ g j, s.origin g = some j →
    j = s.world.link.number ∧ (s.world.link.opened = true ∨ s.world.thread = .dropping)

section Runs
variable {S : Server σ α β} {I : σ → Prop} {Mine : σ → Grant → Prop} {s : System σ}

/-- Where an origin comes from. -/
theorem traced_some {t t' : σ} {k : Option ℕ} {origin : Grant → Option ℕ} {g : Grant} {j : ℕ}
    (h : S.traced t t' k origin g = some j) :
    S.held t' g ≠ none ∧ (S.held t' g = S.held t g ∧ origin g = some j ∨
      S.held t' g ≠ S.held t g ∧ k = some j) := by
  unfold Server.traced at h
  split_ifs at h with hnone hsame
  · exact ⟨hnone, .inl ⟨hsame, h⟩⟩
  · exact ⟨hnone, .inr ⟨hsame, h⟩⟩

/-! ### Steps of the mailbox -/

/-- A step that leaves the counts, and the connection open or dropping. -/
theorem Safe.moved (h : Safe I Mine s) {w : World}
    (hm : (w.m.posted, w.m.served, w.m.dropAfter, w.m.drops, w.m.dropsSeen) =
      (s.world.m.posted, s.world.m.served, s.world.m.dropAfter, s.world.m.drops,
        s.world.m.dropsSeen))
    (hnumber : w.link.number = s.world.link.number)
    (hopened : s.world.link.opened = true ∨ s.world.thread = .dropping →
      w.link.opened = true ∨ w.thread = .dropping)
    (hasked : Asked { s with world := w }) : Safe I Mine { s with world := w } := by
  simp only [Prod.mk.injEq] at hm
  obtain ⟨hposted, hserved, hafter, hdrops, hseen⟩ := hm
  constructor
  · have hc := h.counts
    constructor
    · exact hposted.trans hc.posted
    · exact hserved.trans hc.served
    · exact hafter.trans hc.dropAfter
    · exact hdrops.trans hc.drops
    · exact hseen.trans hc.dropsSeen
    · exact hc.served_le
    · exact hc.seen_le
  · exact hasked
  · exact h.inv
  · exact h.mine
  · intro howed g j hg
    obtain ⟨hj, hopen⟩ := h.here howed g j hg
    exact ⟨hj.trans hnumber.symm, hopened hopen⟩

/-- The thread posts a request. -/
theorem safe_post (h : Safe I Mine s)
    (hopened : s.world.link.opened = true) (req : List UInt8) (f : Bool) :
    Safe I Mine { s with
      world := { s.world with m := s.world.m.post, thread := .waiting s.world.m.post.posted }
      request := req
      functional := f
      asker := s.world.link.number
      tally := { s.tally with posts := s.tally.posts + 1 } } := by
  have hc := h.counts
  constructor
  · constructor
    · simp [Mailbox.Mb.post, hc.posted, UInt32.ofNat_add]
    · exact hc.served
    · exact hc.dropAfter
    · exact hc.drops
    · exact hc.dropsSeen
    · exact Nat.le_succ_of_le hc.served_le
    · exact hc.seen_le
  · refine ⟨rfl, hopened, rfl, .inr ?_⟩
    exact Nat.lt_succ_of_le hc.served_le
  · exact h.inv
  · exact h.mine
  · intro howed g j hg
    obtain ⟨hj, -⟩ := h.here howed g j hg
    exact ⟨hj, .inl hopened⟩

/-- The drop of a connection. -/
theorem safe_drop (h : Safe I Mine s) (hdropping : s.world.thread = .dropping) :
    Safe I Mine { s with
      world := { s.world with m := s.world.m.drop, thread := .idle }
      tally := { s.tally with dropped := s.tally.posts, drops := s.tally.drops + 1 }
      owed := s.owed || (s.origin .session).isSome || (s.origin .unlock).isSome ||
        (s.origin .exchange).isSome } := by
  have hc := h.counts
  have hasked := h.asked
  constructor
  · constructor
    · exact hc.posted
    · exact hc.served
    · exact hc.posted
    · simp [Mailbox.Mb.drop, hc.drops, UInt32.ofNat_add]
    · exact hc.dropsSeen
    · exact hc.served_le
    · exact Nat.le_succ_of_le hc.seen_le
  · simpa [Asked, hdropping, Mailbox.Mb.drop] using hasked
  · exact h.inv
  · exact h.mine
  · intro howed g j hg
    -- a grant that has an origin makes the drop owed
    simp only [Bool.or_eq_false_iff, Option.isSome_eq_false_iff, Option.isNone_iff_eq_none] at howed
    obtain ⟨⟨⟨-, hsession⟩, hunlock⟩, hexchange⟩ := howed
    cases g with
    | session => exact absurd hg (by simp [hsession])
    | unlock => exact absurd hg (by simp [hunlock])
    | exchange => exact absurd hg (by simp [hexchange])

/-- The next connection. -/
theorem safe_connect (h : Safe I Mine s) (hidle : s.world.thread = .idle)
    (hopened : s.world.link.opened = false) :
    Safe I Mine { s with
      world := { s.world with link := { number := s.world.link.number + 1 } } } := by
  have hasked := h.asked
  constructor
  · exact ⟨h.counts.posted, h.counts.served, h.counts.dropAfter, h.counts.drops,
      h.counts.dropsSeen, h.counts.served_le, h.counts.seen_le⟩
  · simpa [Asked, hidle] using hasked
  · exact h.inv
  · exact h.mine
  · intro howed g j hg
    obtain ⟨-, hopen⟩ := h.here howed g j hg
    simp [hidle, hopened] at hopen

/-- The thread stays in, or moves between, places in which no request of its own is out. -/
theorem Safe.settled (h : Safe I Mine s) {w : World}
    (hm : (w.m.posted, w.m.served, w.m.dropAfter, w.m.drops, w.m.dropsSeen) =
      (s.world.m.posted, s.world.m.served, s.world.m.dropAfter, s.world.m.drops,
        s.world.m.dropsSeen))
    (hsettled : w.m.settled = s.world.m.settled) (hlink : w.link.number = s.world.link.number)
    (hopened : s.world.link.opened = true ∨ s.world.thread = .dropping →
      w.link.opened = true ∨ w.thread = .dropping)
    (hbefore : ∀ seq, s.world.thread ≠ .waiting seq) (hafter : ∀ seq, w.thread ≠ .waiting seq) :
    Safe I Mine { s with world := w } := by
  apply h.moved hm hlink hopened
  have hasked : s.world.m.settled = s.world.m.posted := by
    have hask := h.asked
    unfold Asked at hask
    split at hask
    · rename_i seq hthread
      exact absurd hthread (hbefore seq)
    · exact hask
  have hposted : w.m.posted = s.world.m.posted := congrArg (·.1) hm
  unfold Asked
  split
  · rename_i seq hthread
    exact absurd hthread (hafter seq)
  · exact hsettled.trans (hasked.trans hposted.symm)

/-- A step of TCP, or a push, leaves the thread where it is. -/
theorem Safe.beside (h : Safe I Mine s) {w : World}
    (hm : (w.m.posted, w.m.served, w.m.dropAfter, w.m.drops, w.m.dropsSeen) =
      (s.world.m.posted, s.world.m.served, s.world.m.dropAfter, s.world.m.drops,
        s.world.m.dropsSeen))
    (hsettled : w.m.settled = s.world.m.settled) (hlink : w.link.number = s.world.link.number)
    (hopened : w.link.opened = s.world.link.opened) (hthread : w.thread = s.world.thread) :
    Safe I Mine { s with world := w } := by
  apply h.moved hm hlink
  · rw [hopened, hthread]
    exact id
  · have hasked := h.asked
    have hposted : w.m.posted = s.world.m.posted := congrArg (·.1) hm
    simpa [Asked, hthread, hsettled, hposted, hopened, hlink] using hasked

/-- A request that was answered in time, or not, is settled before the thread goes on. -/
theorem safe_collect (h : Safe I Mine s) {seq : UInt32} (hthread : s.world.thread = .waiting seq)
    (hcollect : s.world.m.collect seq = true) (hfresh : s.tally.Fresh) :
    Safe I Mine { s with world := { s.world with thread := .holding (.answer seq) } } := by
  have hc := h.counts
  have hasked := h.asked
  simp only [Asked, hthread] at hasked
  obtain ⟨hseq, hopened, -, hout⟩ := hasked
  refine h.moved rfl rfl (fun _ => .inl hopened) ?_
  show s.world.m.settled = s.world.m.posted
  rcases hout with hout | hlt
  · exact hout
  · -- the word of the last request served is that of this one, so it is this one
    have hword : UInt32.ofNat s.tally.served = UInt32.ofNat s.tally.posts := by
      rw [← hc.served, ← hc.posted, ← hseq]
      simpa [Mailbox.Mb.collect] using hcollect
    rcases hfresh with heq | hdvd
    · omega
    · have hnat := congrArg UInt32.toNat hword
      rw [UInt32.toNat_ofNat', UInt32.toNat_ofNat'] at hnat
      omega

theorem safe_withdraw (h : Safe I Mine s) {seq : UInt32} (hthread : s.world.thread = .waiting seq) :
    Safe I Mine { s with
      world := { s.world with m := s.world.m.withdraw seq, thread := .idle } } := by
  have hasked := h.asked
  simp only [Asked, hthread] at hasked
  obtain ⟨hseq, hopened, -⟩ := hasked
  exact h.moved rfl rfl (fun _ => .inl hopened) hseq

/-- The steps of the mailbox. -/
theorem safe_mailbox (h : Safe I Mine s) (e : Mailbox.Event) (req : List UInt8) (f : Bool)
    (hc : e = .collect → awaits s.world.thread = true → s.tally.Fresh) :
    Safe I Mine (s.mailbox e req f) := by
  cases e with
  | serve | sentTake | droppedTake => exact h
  | post =>
    simp only [System.mailbox, World.step, World.stepThread]
    by_cases hgo : s.world.thread = .idle ∧ s.world.link.opened = true
    · simp only [hgo, and_self, if_true]
      exact safe_post h hgo.2 req f
    · simp only [hgo, if_false]
      exact h
  | collect =>
    simp only [System.mailbox, World.step, World.stepThread]
    cases ht : s.world.thread with
    | waiting seq =>
      by_cases hcollect : s.world.m.collect seq = true
      · simp only [hcollect, if_true]
        exact safe_collect h ht hcollect (hc rfl (by simp [awaits, ht]))
      · simp only [hcollect]
        exact h
    | _ => exact h
  | withdraw =>
    simp only [System.mailbox, World.step, World.stepThread]
    cases ht : s.world.thread with
    | waiting seq =>
      by_cases hcollect : s.world.m.collect seq = true
      · simp only [hcollect, if_true]
        exact h
      · simp only [hcollect]
        exact safe_withdraw h ht
    | _ => exact h
  | pushTake =>
    simp only [System.mailbox, World.step, World.stepThread]
    by_cases hgo : s.world.thread = .idle ∧ s.world.m.pushTake.1 = true
    · simp only [hgo, and_self, if_true]
      have htaken : ¬s.world.m.pushTaken = s.world.m.pushed := by
        intro heq
        simp [Mailbox.Mb.pushTake, heq] at hgo
      refine h.settled ?_ ?_ rfl ?_ (by simp [hgo.1]) (by simp)
      · simp [Mailbox.Mb.pushTake, htaken]
      · simp [Mailbox.Mb.pushTake, htaken]
      · simp [hgo.1]
    · simp only [hgo, if_false]
      exact h
  | compose =>
    simp only [System.mailbox, World.step, World.stepThread]
    by_cases hgo : s.world.thread = .idle ∧ s.world.link.opened = true
    · simp only [hgo, and_self, if_true]
      exact h.settled rfl rfl rfl (fun _ => .inl hgo.2) (by simp [hgo.1]) (by simp)
    · simp only [hgo, if_false]
      exact h
  | discard =>
    simp only [System.mailbox, World.step, World.stepThread]
    cases ht : s.world.thread with
    | holding item => exact h.settled rfl rfl rfl (by simp [ht]) (by simp [ht]) (by simp)
    | _ => exact h
  | send =>
    simp only [System.mailbox, World.step, World.stepThread]
    cases ht : s.world.thread with
    | holding item =>
      by_cases hgo : s.world.link.opened = true ∧ s.world.link.tcp ≠ .closed
      · simp only [hgo, and_self, if_true, ne_eq, not_false_eq_true]
        exact h.settled rfl rfl rfl (fun _ => .inl rfl) (by simp [ht]) (by simp)
      · simp only [hgo, if_false]
        exact h
    | _ => exact h
  | queue =>
    simp only [System.mailbox, World.step, World.stepThread]
    cases ht : s.world.thread with
    | sent item =>
      cases item with
      | push seq => exact h.settled rfl rfl rfl (by simp [ht]) (by simp [ht]) (by simp)
      | _ => exact h.settled rfl rfl rfl (by simp [ht]) (by simp [ht]) (by simp)
    | _ => exact h
  | pushQueue =>
    simp only [System.mailbox, World.step, World.stepThread]
    cases ht : s.world.thread with
    | pushQueueing seq => exact h.settled rfl rfl rfl (by simp [ht]) (by simp [ht]) (by simp)
    | _ => exact h
  | recycle =>
    simp only [System.mailbox, World.step, World.stepThread]
    cases ht : s.world.thread with
    | idle | holding item =>
      by_cases hgo : s.world.link.opened = true
      · simp only [hgo, if_true]
        exact h.settled rfl rfl rfl (fun _ => .inr rfl) (by simp [ht]) (by simp)
      · simp only [hgo]
        exact h
    | _ => exact h
  | drop =>
    simp only [System.mailbox, World.step, World.stepThread]
    by_cases ht : s.world.thread = .dropping
    · simp only [ht, if_true]
      exact safe_drop h ht
    · simp only [ht, if_false]
      exact h
  | connect =>
    simp only [System.mailbox, World.step, World.stepThread]
    by_cases hgo : s.world.thread = .idle ∧ s.world.link.opened = false
    · rw [if_pos hgo]
      exact safe_connect h hgo.1 hgo.2
    · rw [if_neg hgo]
      exact h
  | acknowledge n =>
    simp only [System.mailbox, World.step, World.stepTcp]
    split
    · exact h
    · exact h.beside rfl rfl rfl rfl rfl
  | finish =>
    simp only [System.mailbox, World.step, World.stepTcp]
    split
    · exact h.beside rfl rfl rfl rfl rfl
    · exact h
  | reset => exact h.beside rfl rfl rfl rfl rfl
  | push =>
    simp only [System.mailbox, World.step, World.stepServer]
    split
    · exact h.beside rfl rfl rfl rfl rfl
    · exact h
  | pushSentTake =>
    simp only [System.mailbox, World.step, World.stepServer]
    split
    · refine h.beside ?_ ?_ rfl rfl rfl
      · unfold Mailbox.Mb.pushSentTake
        split_ifs <;> rfl
      · unfold Mailbox.Mb.pushSentTake
        split_ifs <;> rfl
    · exact h

/-! ### Passes -/

/-- The words of the mailbox tell an owed drop. -/
theorem droppedTake_of_telling (h : Safe I Mine s) (ht : s.tally.Telling) :
    s.world.m.droppedTake.1 = true := by
  have hc := h.counts
  obtain ⟨hdrops, hle⟩ := ht
  have hne : s.world.m.drops ≠ s.world.m.dropsSeen := by
    intro heq
    have hnat := congrArg UInt32.toNat heq
    rw [hc.drops, hc.dropsSeen, UInt32.toNat_ofNat', UInt32.toNat_ofNat'] at hnat
    have hseen := hc.seen_le
    omega
  have hafter : s.world.m.served ≤ s.world.m.dropAfter := by
    rw [hc.served, hc.dropAfter, UInt32.le_iff_toNat_le, UInt32.toNat_ofNat', UInt32.toNat_ofNat']
    exact hle
  simp [Mailbox.Mb.droppedTake, hne, hafter]

variable (hends : Ends S I Mine)
include hends

/-- The report of an acknowledged answer. -/
theorem safe_takeSent (h : Safe I Mine s) : Safe I Mine (s.takeSent S) := by
  have hmoved : Safe I Mine { s with world := (s.world.stepServer .sentTake).1 } := by
    refine h.beside ?_ ?_ rfl rfl rfl
    · simp only [World.stepServer, Mailbox.Mb.sentTake]
      split_ifs <;> rfl
    · simp only [World.stepServer, Mailbox.Mb.sentTake]
      split_ifs <;> rfl
  unfold System.takeSent
  dsimp only
  split
  · constructor
    · exact ⟨hmoved.counts.posted, hmoved.counts.served, hmoved.counts.dropAfter,
        hmoved.counts.drops, hmoved.counts.dropsSeen, hmoved.counts.served_le,
        hmoved.counts.seen_le⟩
    · exact hmoved.asked
    · exact hends.sent_inv hmoved.inv
    · intro g j hg
      obtain ⟨hheld, ⟨hsame, horigin⟩ | ⟨-, hk⟩⟩ := traced_some hg
      · exact hends.sent hmoved.inv (hmoved.mine g j horigin) hheld hsame
      · cases hk
    · intro howed g j hg
      obtain ⟨-, ⟨-, horigin⟩ | ⟨-, hk⟩⟩ := traced_some hg
      · exact hmoved.here howed g j horigin
      · cases hk
  · exact hmoved

/-- The report of a drop leaves none that is owed. -/
theorem safe_takeDropped (h : Safe I Mine s) (ht : s.owed = true → s.tally.Telling) :
    Safe I Mine (s.takeDropped S) ∧ (s.takeDropped S).owed = false := by
  have hc := h.counts
  have hcounts (o : Grant → Option ℕ) (b : Bool) (t : σ) : Counts { s with
      server := t, origin := o, owed := b
      world := (s.world.stepServer .droppedTake).1
      tally := { s.tally with seen := s.tally.drops } } := by
    constructor
    · refine Eq.trans ?_ hc.posted
      simp only [World.stepServer, Mailbox.Mb.droppedTake]
      split_ifs <;> rfl
    · refine Eq.trans ?_ hc.served
      simp only [World.stepServer, Mailbox.Mb.droppedTake]
      split_ifs <;> rfl
    · refine Eq.trans ?_ hc.dropAfter
      simp only [World.stepServer, Mailbox.Mb.droppedTake]
      split_ifs <;> rfl
    · refine Eq.trans ?_ hc.drops
      simp only [World.stepServer, Mailbox.Mb.droppedTake]
      split_ifs <;> rfl
    · refine Eq.trans ?_ hc.drops
      simp only [World.stepServer, Mailbox.Mb.droppedTake]
      split_ifs <;> rfl
    · exact hc.served_le
    · exact le_refl _
  have hasked (o : Grant → Option ℕ) (b : Bool) (t : σ) : Asked { s with
      server := t, origin := o, owed := b
      world := (s.world.stepServer .droppedTake).1
      tally := { s.tally with seen := s.tally.drops } } := by
    have hasked := h.asked
    simp only [World.stepServer, Mailbox.Mb.droppedTake]
    split_ifs <;> exact hasked
  unfold System.takeDropped
  dsimp only
  by_cases htaken : s.world.m.droppedTake.1 = true
  · rw [if_pos htaken]
    -- nothing that the connection obtained is left
    have hnone (g : Grant) (j : ℕ) : S.traced s.server (S.remoteDropped s.server) none s.origin g ≠
        some j := by
      intro hg
      obtain ⟨hheld, ⟨hsame, horigin⟩ | ⟨-, hk⟩⟩ := traced_some hg
      · exact hends.dropped h.inv (h.mine g j horigin) hheld hsame
      · cases hk
    refine ⟨?_, rfl⟩
    constructor
    · exact hcounts _ _ _
    · exact hasked _ _ _
    · exact hends.dropped_inv h.inv
    · intro g j hg
      exact absurd hg (hnone g j)
    · intro _ g j hg
      exact absurd hg (hnone g j)
  · rw [if_neg htaken]
    have howed : s.owed = false := by
      by_contra howed
      exact htaken (droppedTake_of_telling h (ht (by simpa using howed)))
    refine ⟨?_, howed⟩
    constructor
    · exact hcounts _ _ _
    · exact hasked _ _ _
    · exact h.inv
    · exact h.mine
    · intro _ g j hg
      obtain ⟨hj, hopen⟩ := h.here howed g j hg
      simp only [World.stepServer, htaken]
      exact ⟨hj, hopen⟩

/-- Serving the request that waits. -/
theorem safe_serve (h : Safe I Mine s) (howed : s.owed = false) (hw : s.world.m.waiting = true)
    (x : β) : Safe I Mine (s.serve S x) ∧ ∀ g j, s.origin g = some j → j = s.asker := by
  have hc := h.counts
  have hasked := h.asked
  obtain ⟨seq, hthread⟩ : ∃ seq, s.world.thread = .waiting seq := by
    unfold Asked at hasked
    split at hasked
    · exact ⟨_, ‹_›⟩
    · simp [Mailbox.Mb.waiting, hasked] at hw
  simp only [Asked, hthread] at hasked
  obtain ⟨hseq, hopened, hasker, -⟩ := hasked
  have hserve : (s.world.stepServer .serve).1 = { s.world with m := s.world.m.serve, gone := false } := by
    simp [World.stepServer, hw]
  refine ⟨?_, fun g j hg => (h.here howed g j hg).1.trans hasker.symm⟩
  unfold System.serve
  dsimp only
  rw [hserve]
  constructor
  · exact ⟨hc.posted, hc.posted, hc.dropAfter, hc.drops, hc.dropsSeen, le_refl _, hc.seen_le⟩
  · simp only [Asked, System.moveTo, hthread]
    exact ⟨hseq, hopened, hasker, .inl rfl⟩
  · exact hends.serve_inv h.inv _ _ x
  · intro g j hg
    obtain ⟨hheld, ⟨hsame, horigin⟩ | ⟨hnew, -⟩⟩ := traced_some hg
    · exact hends.served h.inv _ _ x (h.mine g j horigin) hheld hsame
    · exact hends.gained h.inv _ _ x hheld hnew
  · intro _ g j hg
    obtain ⟨-, ⟨-, horigin⟩ | ⟨-, hk⟩⟩ := traced_some hg
    · exact h.here howed g j horigin
    · have hj : j = s.asker := (Option.some.inj hk).symm
      exact ⟨hj.trans hasker, .inl hopened⟩

/-- A call that is not the mailbox's. -/
theorem safe_other (h : Safe I Mine s) (a : α) :
    Safe I Mine (s.moveTo S none (S.other s.server a)) := by
  constructor
  · exact ⟨h.counts.posted, h.counts.served, h.counts.dropAfter, h.counts.drops,
      h.counts.dropsSeen, h.counts.served_le, h.counts.seen_le⟩
  · exact h.asked
  · exact hends.other_inv h.inv a
  · intro g j hg
    obtain ⟨hheld, ⟨hsame, horigin⟩ | ⟨-, hk⟩⟩ := traced_some hg
    · exact hends.moved h.inv a (h.mine g j horigin) hheld hsame
    · cases hk
  · intro howed g j hg
    obtain ⟨-, ⟨-, horigin⟩ | ⟨-, hk⟩⟩ := traced_some hg
    · exact h.here howed g j horigin
    · cases hk

/-- One step. -/
theorem safe_step (h : Safe I Mine s) (e : Event α β) (hc : Clear (Trace.entry (System.step S) s e)) :
    Safe I Mine (System.step S s e).1 ∧ Isolated (Trace.entry (System.step S) s e) := by
  cases e with
  | mailbox e req f =>
    refine ⟨safe_mailbox h e req f ?_, fun _ hs => nomatch hs⟩
    rintro rfl
    exact hc
  | other a => exact ⟨safe_other hends h a, fun _ hs => nomatch hs⟩
  | pass x =>
    obtain ⟨hdropped, howed⟩ := safe_takeDropped hends (safe_takeSent hends h) (by
      intro howed
      unfold System.takeSent at howed ⊢
      dsimp only at howed ⊢
      split at howed <;> rename_i htaken
      · rw [if_pos htaken]
        exact hc howed
      · rw [if_neg htaken]
        exact hc howed)
    simp only [System.step, System.pass, Isolated, Trace.entry_label]
    split
    · rename_i hw
      obtain ⟨hserve, hsame⟩ := safe_serve hends hdropped howed hw x
      refine ⟨hserve, fun t ht => ?_⟩
      obtain rfl := Option.mem_some.mp ht
      exact ⟨howed, hsame⟩
    · exact ⟨hdropped, fun _ hs => nomatch hs⟩

/-- Along every run whose steps are clear, from a server with which no connection has spoken. -/
theorem isolated_run {server : σ} (h : I server) (es : List (Event α β))
    (hc : ∀ x ∈ Trace.history (System.step S) { server := server } es, Clear x) :
    ∀ x ∈ Trace.history (System.step S) { server := server } es, Isolated x := by
  have hstart : Safe I Mine ({ server := server } : System σ) := by
    constructor
    · constructor <;> simp
    · rfl
    · exact h
    · intro g j hg
      exact nomatch hg
    · intro _ g j hg
      exact nomatch hg
  refine (Trace.run_induction_of Clear (fun s hist => Safe I Mine s ∧ ∀ x ∈ hist, Isolated x)
    ⟨hstart, by simp⟩ ?_ es hc).2
  intro es e hsafe hclear
  obtain ⟨hsafe', hx⟩ := safe_step hends hsafe.1 e hclear
  refine ⟨hsafe', fun x hmem => ?_⟩
  rcases List.mem_append.mp hmem with hmem | hmem
  · exact hsafe.2 x hmem
  · exact List.mem_singleton.mp hmem ▸ hx

end Runs

end BloblyEmb.Serving
