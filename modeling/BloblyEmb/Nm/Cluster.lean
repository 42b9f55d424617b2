import BloblyEmb.Lib.Trace
import BloblyEmb.Nm.Machine

/-!
# A cluster on one network

Any number of nodes call their state machines at times of their own, and each message of a node
comes to the others in any order within a bounded delay (`comm/nm_can`). A node that wants the
network is heard often enough that no other falls asleep.
-/
namespace BloblyEmb.Network

/-- A node: the module on the bus and its state machine. -/
structure NmModule where
  nodeId : UInt8
  pnLocal : UInt64
  sm : Nm

/-- All nodes, and all messages that were transmitted. -/
structure World (ι : Type) where
  nodes : ι → NmModule
  sent : List (ι × Frame) := []

inductive Call (ι : Type) where
  | request (i : ι)
  | release (i : ι)
  | hold (i : ι) (on : Bool)
  /-- The node gets the message that was transmitted as this one, counted from 0. -/
  | receive (i : ι) (k : ℕ)
  | tick (i : ι)

structure Event (ι : Type) where
  now : UInt64
  call : Call ι

inductive Label where
  | quiet
  | sent
deriving DecidableEq

variable {ι : Type} [DecidableEq ι]

namespace World

def put (w : World ι) (i : ι) (n : Nm) : World ι :=
  { w with nodes := Function.update w.nodes i { w.nodes i with sm := n } }

def sm (w : World ι) (i : ι) : Nm := (w.nodes i).sm

/-- A tick, and the message that it may ask for. -/
def produce (w : World ι) (i : ι) (now : UInt64) : World ι × Label :=
  let m := w.nodes i
  let ticked := m.sm.tick now
  if ticked.2 then
    ({ w.put i ticked.1 with
        sent := w.sent ++ [(i, ticked.1.buildFrame m.nodeId m.pnLocal)] }, .sent)
  else (w.put i ticked.1, .quiet)

/-- A node drops the echo of its own messages. -/
def onPeers (w : World ι) (i : ι) (k : ℕ) (now : UInt64) : World ι :=
  match w.sent[k]? with
  | none => w
  | some (j, f) => if j = i then w else w.put i ((w.sm i).onFrame now f)

def step (w : World ι) (e : Event ι) : World ι × Label :=
  match e.call with
  | .request i => (w.put i ((w.sm i).request e.now), .quiet)
  | .release i => (w.put i (w.sm i).release, .quiet)
  | .hold i on => (w.put i ((w.sm i).hold e.now on), .quiet)
  | .receive i k => (w.onPeers i k e.now, .quiet)
  | .tick i => w.produce i e.now

end World

abbrev Step (ι : Type) := Trace.Entry (World ι) (Event ι) Label

/-! ## Time -/

/-- When the nodes were ticked last, when the messages were transmitted, and who has got which. -/
structure Log (ι : Type) where
  clock : UInt64
  lastTick : ι → UInt64
  sent : List (ι × UInt64) := []
  got : ι → ℕ → Bool := fun _ _ => false

def Log.note (g : Log ι) (e : Event ι) (l : Label) : Log ι :=
  let g := { g with clock := e.now }
  match e.call with
  | .tick i =>
    let g := { g with lastTick := Function.update g.lastTick i e.now }
    match l with
    | .sent => { g with sent := g.sent ++ [(i, e.now)] }
    | .quiet => g
  | .receive i k =>
    if k < g.sent.length then
      { g with got := Function.update g.got i (Function.update (g.got i) k true) }
    else g
  | _ => g

def log (start : UInt64) (hist : List (Step ι)) : Log ι :=
  hist.foldl (fun g x => g.note x.event x.label) { clock := start, lastTick := fun _ => start }

theorem log_snoc (start : UInt64) (hist : List (Step ι)) (x : Step ι) :
    log start (hist ++ [x]) = (log start hist).note x.event x.label := by
  simp [log]

/-- Time does not run backwards, each node is ticked at least every `T`, and each message is with
each other node after at most `D`. -/
structure Timely (T D : ℕ) (g : Log ι) (x : Step ι) : Prop where
  order : g.clock ≤ x.event.now
  spacing : ∀ i, x.event.now.toNat ≤ (g.lastTick i).toNat + T
  delay : ∀ k i s, g.sent[k]? = some (i, s) → ∀ j ≠ i, g.got j k = false →
    x.event.now.toNat ≤ s.toNat + D

/-- The node has wanted the network for one message cycle, one tick spacing and one delay (for
longer than that, should the cycle be zero). -/
def Requesting (cycle T D : ℕ) (a : ι) (now : UInt64) (hist : List (Step ι)) : Prop :=
  Trace.Since (fun y => (y.after.sm a).wanted = true)
    (fun y => y.event.now.toNat + cycle + T + D ≤ now.toNat ∧ y.event.now.toNat + T + D < now.toNat)
    hist

/-- The states of a node on the way to sleep and asleep. -/
def State.Asleep (s : State) : Prop := s = .prepareBusSleep ∨ s = .busSleep

structure Coordinated (cfg : ι → Timings) (T D : ℕ) (hist : List (Step ι)) (x : Step ι) :
    Prop where
  /-- No node enters a sleep while another is requesting the network. -/
  asleep : ∀ b, (x.after.sm b).state.Asleep → (x.after.sm b).state ≠ (x.before.sm b).state →
    ∀ a ≠ b, ¬Requesting (cfg a).msgCycleUs.toNat T D a x.event.now hist
  /-- A node that is asleep does not want the network. -/
  wanted : ∀ b, (x.after.sm b).state = .busSleep →
    (x.after.sm b).requested = false ∧ (x.after.sm b).held = false

/-! ## The invariant -/

structure Inv (cfg : ι → Timings) (T : ℕ) (w : World ι) (g : Log ι) (hist : List (Step ι)) :
    Prop where
  timings : ∀ i, (w.sm i).cfg = cfg i
  sound : ∀ i, Sound (w.sm i) g.clock
  senders : w.sent.map Prod.fst = g.sent.map Prod.fst
  times : ∀ m ∈ g.sent, m.2 ≤ g.clock
  ticks : ∀ i, g.lastTick i ≤ g.clock
  past : ∀ y ∈ hist, y.event.now ≤ g.clock
  /-- What an active node transmitted last is a message. -/
  announced : ∀ i, (w.sm i).state.Active → (w.sm i).txArmed = false →
    (i, (w.sm i).lastTxUs) ∈ g.sent
  known : ∀ j k, g.got j k = true → k < g.sent.length
  heard : ∀ (k : ℕ) i s, g.sent[k]? = some (i, s) → ∀ j ≠ i, g.got j k = true →
    s ≤ (w.sm j).lastActivityUs
  /-- At each tick of a node that wants the network its last message is from within the cycle. -/
  cycle : ∀ z ∈ hist, ∀ a, z.event.call = .tick a → (z.after.sm a).wanted = true →
    ∃ s, (a, s) ∈ g.sent ∧ s ≤ z.event.now ∧
      z.event.now.toNat ≤ s.toNat + (cfg a).msgCycleUs.toNat
  /-- After each step, a tick comes before any time that is more than the spacing later. -/
  window : ∀ h₁ y h₂, hist = h₁ ++ y :: h₂ → ∀ a u, y.event.now.toNat + T < u →
    u ≤ (g.lastTick a).toNat + T →
      ∃ z ∈ h₂, z.event.call = .tick a ∧ z.event.now.toNat < u ∧ u ≤ z.event.now.toNat + T

@[simp] theorem put_sm (w : World ι) (i : ι) (n : Nm) :
    (w.put i n).sm = Function.update w.sm i n := by
  funext j
  by_cases hj : j = i
  · subst hj
    simp [World.put, World.sm]
  · simp [World.put, World.sm, Function.update_of_ne hj]

@[simp] theorem put_sent (w : World ι) (i : ι) (n : Nm) : (w.put i n).sent = w.sent := rfl

@[simp] theorem produce_sm (w : World ι) (i : ι) (now : UInt64) :
    (w.produce i now).1.sm = Function.update w.sm i ((w.sm i).tick now).1 := by
  unfold World.produce
  simp only
  split <;> exact put_sm w i _

/-- A call that is no tick puts no node to sleep. -/
theorem kept_step {w : World ι} {e : Event ι} (hsound : ∀ i, Sound (w.sm i) e.now)
    (hcall : ∀ a, e.call ≠ .tick a) (j : ι) : Kept (w.sm j) ((w.step e).1.sm j) := by
  have hput : ∀ i n, Kept (w.sm i) n → Kept (w.sm j) ((w.put i n).sm j) := by
    intro i n hn
    rw [put_sm]
    by_cases hj : j = i
    · subst hj
      rwa [Function.update_self]
    · rw [Function.update_of_ne hj]
      exact Kept.refl _
  obtain ⟨now, call⟩ := e
  cases call with
  | request i => exact hput i _ (request_spec (hsound i)).1
  | release i => exact hput i _ (release_spec (hsound i)).1
  | hold i on => exact hput i _ (hold_spec (hsound i) on).1
  | tick i => exact absurd rfl (hcall i)
  | receive i k =>
    simp only [World.step, World.onPeers]
    split
    · exact Kept.refl _
    · split
      · exact Kept.refl _
      · exact hput i _ (onFrame_spec (hsound i) _).1

section Steps

variable {cfg : ι → Timings} {T D : ℕ} {w : World ι} {g g' : Log ι} {hist : List (Step ι)}
  {x : Step ι}

omit [DecidableEq ι] in
theorem Inv.window_snoc (h : Inv cfg T w g hist) (ht : Timely T D g x)
    (hlast : ∀ a, g'.lastTick a = g.lastTick a ∨
      x.event.call = .tick a ∧ g'.lastTick a = x.event.now)
    {h₁ h₂ : List (Step ι)} {y : Step ι} (heq : hist ++ [x] = h₁ ++ y :: h₂) (a : ι) (u : ℕ)
    (hy : y.event.now.toNat + T < u) (hu : u ≤ (g'.lastTick a).toNat + T) :
    ∃ z ∈ h₂, z.event.call = .tick a ∧ z.event.now.toNat < u ∧ u ≤ z.event.now.toNat + T := by
  have horder := UInt64.le_iff_toNat_le.mp ht.order
  have htick := UInt64.le_iff_toNat_le.mp (h.ticks a)
  have hspacing := ht.spacing a
  rcases List.eq_nil_or_concat h₂ with rfl | ⟨h₂', z, rfl⟩
  · -- the last step itself: no tick is that late
    obtain ⟨-, hx⟩ := List.append_inj' heq rfl
    rw [← (List.cons.inj hx).1] at hy
    rcases hlast a with hsame | ⟨-, hnew⟩
    · rw [hsame] at hu
      omega
    · rw [hnew] at hu
      omega
  · rw [List.concat_eq_append, ← List.cons_append, ← List.append_assoc] at heq
    obtain ⟨hhist, hx⟩ := List.append_inj' heq rfl
    have hold : u ≤ (g.lastTick a).toNat + T →
        ∃ z' ∈ h₂'.concat z, z'.event.call = .tick a ∧ z'.event.now.toNat < u ∧
          u ≤ z'.event.now.toNat + T := by
      intro hle
      obtain ⟨z', hz', hspec⟩ := h.window h₁ y h₂' hhist a u hy hle
      exact ⟨z', by simp [hz'], hspec⟩
    rcases hlast a with hsame | ⟨hcall, hnew⟩
    · rw [hsame] at hu
      exact hold hu
    · by_cases hle : u ≤ (g.lastTick a).toNat + T
      · exact hold hle
      · rw [hnew] at hu
        rw [← (List.cons.inj hx).1]
        exact ⟨x, by simp, hcall, by omega, hu⟩

omit [DecidableEq ι] in
/-- A call that is no tick. -/
theorem Inv.keep (h : Inv cfg T w g hist) (ht : Timely T D g x)
    (hnodes : ∀ j, Kept (w.sm j) (x.after.sm j) ∧ Sound (x.after.sm j) x.event.now)
    (hcall : ∀ a, x.event.call ≠ .tick a) (hsent : x.after.sent = w.sent)
    (hclock : g'.clock = x.event.now) (hlast : g'.lastTick = g.lastTick) (hlog : g'.sent = g.sent)
    (hknown : ∀ j k, g'.got j k = true → k < g.sent.length)
    (hgot : ∀ (k : ℕ) i s, g.sent[k]? = some (i, s) → ∀ j ≠ i, g'.got j k = true →
      g.got j k = true ∨ s ≤ (x.after.sm j).lastActivityUs) :
    Inv cfg T x.after g' (hist ++ [x]) := by
  constructor
  case timings =>
    intro i
    rw [(hnodes i).1.cfg, h.timings]
  case sound =>
    intro i
    rw [hclock]
    exact (hnodes i).2
  case senders => rw [hsent, hlog, h.senders]
  case times =>
    intro m hm
    rw [hlog] at hm
    rw [hclock]
    exact UInt64.le_trans (h.times m hm) ht.order
  case ticks =>
    intro i
    rw [hlast, hclock]
    exact UInt64.le_trans (h.ticks i) ht.order
  case past =>
    intro y hy
    rw [hclock]
    rcases List.mem_append.mp hy with hy | hy
    · exact UInt64.le_trans (h.past y hy) ht.order
    · rw [List.mem_singleton.mp hy]
      exact UInt64.le_refl _
  case announced =>
    intro i hactive harmed
    obtain ⟨hactive', harmed'⟩ := (hnodes i).1.armed hactive harmed
    rw [(hnodes i).1.lastTx, hlog]
    exact h.announced i hactive' harmed'
  case known =>
    rw [hlog]
    exact hknown
  case heard =>
    intro k i s hk j hj hg
    rw [hlog] at hk
    rcases hgot k i s hk j hj hg with hold | hnew
    · exact UInt64.le_trans (h.heard k i s hk j hj hold) (hnodes j).1.activity
    · exact hnew
  case cycle =>
    intro z hz a hz'
    rcases List.mem_append.mp hz with hz | hz
    · rw [hlog]
      exact h.cycle z hz a hz'
    · rw [List.mem_singleton.mp hz] at hz'
      exact absurd hz' (hcall a)
  case window =>
    intro h₁ y h₂ heq a u
    exact h.window_snoc ht (fun b => .inl (by rw [hlast])) heq a u

/-- A step that changes one node, and not by a tick. -/
theorem Inv.put (h : Inv cfg T w g hist) (ht : Timely T D g x) {i : ι} {n : Nm}
    (hafter : x.after = w.put i n) (hn : Kept (w.sm i) n ∧ Sound n x.event.now) (j : ι) :
    Kept (w.sm j) (x.after.sm j) ∧ Sound (x.after.sm j) x.event.now := by
  rw [hafter, put_sm]
  by_cases hj : j = i
  · subst hj
    simpa using hn
  · rw [Function.update_of_ne hj]
    exact ⟨Kept.refl _, (h.sound j).later ht.order⟩

theorem good_tick (h : Inv cfg T w g hist) {now : UInt64} {i : ι}
    (ht : Timely T D g (Trace.entry World.step w ⟨now, .tick i⟩)) :
    Inv cfg T (w.produce i now).1 (g.note ⟨now, .tick i⟩ (w.produce i now).2)
      (hist ++ [Trace.entry World.step w ⟨now, .tick i⟩]) := by
  have hsound := (h.sound i).later ht.order
  have hspec := tick_spec hsound
  have hold : ∀ m ∈ g.sent, m.2 ≤ now := fun m hm => UInt64.le_trans (h.times m hm) ht.order
  -- The tick leaves the node with `n'`, and the messages are those of before and perhaps one more.
  obtain ⟨n', tx, hn', hsm, hsent, hlog, hlast, hclock, hgot⟩ :
      ∃ n' tx, Ticks (w.sm i) n' tx now ∧
        (w.produce i now).1.sm = Function.update w.sm i n' ∧
        (w.produce i now).1.sent.map Prod.fst =
          w.sent.map Prod.fst ++ (if tx = true then [i] else []) ∧
        (g.note ⟨now, .tick i⟩ (w.produce i now).2).sent =
          g.sent ++ (if tx = true then [(i, now)] else []) ∧
        (g.note ⟨now, .tick i⟩ (w.produce i now).2).lastTick =
          Function.update g.lastTick i now ∧
        (g.note ⟨now, .tick i⟩ (w.produce i now).2).clock = now ∧
        (g.note ⟨now, .tick i⟩ (w.produce i now).2).got = g.got := by
    refine ⟨((w.sm i).tick now).1, ((w.sm i).tick now).2, hspec, ?_⟩
    cases htx : ((w.sm i).tick now).2 with
    | true =>
      have htx' : ((w.nodes i).sm.tick now).2 = true := htx
      simp only [World.produce, htx', if_true, Log.note]
      exact ⟨put_sm w i _, by simp, by simp, by simp, by simp, by simp⟩
    | false =>
      have htx' : ((w.nodes i).sm.tick now).2 = false := htx
      simp only [World.produce, htx', Log.note]
      exact ⟨put_sm w i _, by simp, by simp, by simp, by simp, by simp⟩
  have hmem : ∀ m, m ∈ g.sent ++ (if tx = true then [(i, now)] else []) ↔
      m ∈ g.sent ∨ tx = true ∧ m = (i, now) := by
    intro m
    cases tx <;> simp
  have hother : ∀ j, j ≠ i → (w.produce i now).1.sm j = w.sm j := by
    intro j hj
    rw [hsm, Function.update_of_ne hj]
  have hself : (w.produce i now).1.sm i = n' := by rw [hsm, Function.update_self]
  constructor
  case timings =>
    intro j
    by_cases hj : j = i
    · subst hj
      rw [hself, hn'.cfg, h.timings]
    · rw [hother j hj, h.timings]
  case sound =>
    intro j
    rw [hclock]
    by_cases hj : j = i
    · subst hj
      rw [hself]
      exact hn'.sound
    · rw [hother j hj]
      exact (h.sound j).later ht.order
  case senders =>
    rw [hsent, hlog, h.senders, List.map_append]
    cases tx <;> simp
  case times =>
    intro m hm
    rw [hclock]
    rw [hlog, hmem] at hm
    rcases hm with hm | ⟨-, rfl⟩
    · exact hold m hm
    · exact UInt64.le_refl _
  case ticks =>
    intro j
    rw [hlast, hclock]
    by_cases hj : j = i
    · subst hj
      rw [Function.update_self]
      exact UInt64.le_refl _
    · rw [Function.update_of_ne hj]
      exact UInt64.le_trans (h.ticks j) ht.order
  case past =>
    intro y hy
    rw [hclock]
    rcases List.mem_append.mp hy with hy | hy
    · exact UInt64.le_trans (h.past y hy) ht.order
    · rw [List.mem_singleton.mp hy]
      exact UInt64.le_refl _
  case announced =>
    intro j hactive harmed
    rw [hlog, hmem]
    by_cases hj : j = i
    · subst hj
      rw [hself] at hactive harmed ⊢
      cases htx : tx with
      | true =>
        refine .inr ⟨rfl, ?_⟩
        rw [hn'.sent htx]
      | false =>
        rw [hn'.silent htx]
        have hbefore := (hn'.armed hactive harmed).resolve_left (by simp [htx])
        exact .inl (h.announced j hbefore.1 hbefore.2)
    · rw [hother j hj] at hactive harmed ⊢
      exact .inl (h.announced j hactive harmed)
  case known =>
    intro j k hg
    rw [hgot] at hg
    rw [hlog, List.length_append]
    exact Nat.lt_of_lt_of_le (h.known j k hg) (Nat.le_add_right _ _)
  case heard =>
    intro k j s hk l hl hg
    rw [hgot] at hg
    have hkept : (w.sm l).lastActivityUs ≤ ((w.produce i now).1.sm l).lastActivityUs := by
      by_cases hli : l = i
      · subst hli
        rw [hself]
        exact hn'.activity
      · rw [hother l hli]
        exact UInt64.le_refl _
    rw [hlog, List.getElem?_append_left (h.known l k hg)] at hk
    exact UInt64.le_trans (h.heard k j s hk l hl hg) hkept
  case cycle =>
    intro z hz a hz' hwanted
    rw [hlog]
    rcases List.mem_append.mp hz with hz | hz
    · obtain ⟨s, hs, hspec⟩ := h.cycle z hz a hz' hwanted
      exact ⟨s, (hmem _).mpr (.inl hs), hspec⟩
    · rw [List.mem_singleton.mp hz] at hz' hwanted ⊢
      simp only [Trace.entry_event, Call.tick.injEq] at hz' ⊢
      subst hz'
      have hwants : (w.sm i).wanted = true := by
        rw [← hn'.wanted, ← hself]
        exact hwanted
      have hactive := hsound.wanted hwants
      cases htx : tx with
      | true => exact ⟨now, by simp, UInt64.le_refl _, by omega⟩
      | false =>
        obtain ⟨harmed, hdue⟩ := hn'.due hactive htx
        rw [h.timings] at hdue
        exact ⟨(w.sm i).lastTxUs, by simpa using h.announced i hactive harmed, hsound.tx,
          Nat.le_of_lt hdue⟩
  case window =>
    intro h₁ y h₂ heq a u
    refine h.window_snoc ht ?_ heq a u
    intro b
    rw [hlast]
    by_cases hb : b = i
    · subst hb
      exact .inr ⟨rfl, Function.update_self _ _ _⟩
    · exact .inl (Function.update_of_ne hb _ _)

theorem good_receive (h : Inv cfg T w g hist) {now : UInt64} {i : ι} {k : ℕ}
    (ht : Timely T D g (Trace.entry World.step w ⟨now, .receive i k⟩)) :
    Inv cfg T (w.onPeers i k now) (g.note ⟨now, .receive i k⟩ .quiet)
      (hist ++ [Trace.entry World.step w ⟨now, .receive i k⟩]) := by
  have hsound : ∀ j, Sound (w.sm j) now := fun j => (h.sound j).later ht.order
  have hlength : w.sent.length = g.sent.length := by
    have hlen := congrArg List.length h.senders
    simpa using hlen
  cases hget : w.sent[k]? with
  | none =>
    have hle := List.getElem?_eq_none_iff.mp hget
    have hnote : g.note ⟨now, .receive i k⟩ .quiet = { g with clock := now } := by
      simp only [Log.note]
      rw [if_neg (by omega)]
    have hstep : (Trace.entry World.step w ⟨now, .receive i k⟩).after = w := by
      simp [World.step, World.onPeers, hget]
    have hpeers : w.onPeers i k now = (Trace.entry World.step w ⟨now, .receive i k⟩).after := rfl
    rw [hpeers, hnote]
    refine h.keep ht (fun j => ?_) (by simp) (by rw [hstep]) rfl rfl rfl h.known ?_
    · rw [hstep]
      exact ⟨Kept.refl _, hsound j⟩
    · intro k' j s _ l _ hg
      exact .inl hg
  | some m =>
    obtain ⟨j, f⟩ := m
    have hlt : k < g.sent.length := by
      rw [← hlength]
      exact (List.getElem?_eq_some_iff.mp hget).1
    have hnote : g.note ⟨now, .receive i k⟩ .quiet = { g with
        clock := now
        got := Function.update g.got i (Function.update (g.got i) k true) } := by
      simp only [Log.note]
      rw [if_pos hlt]
    -- The message is from the node that the log has for it.
    have hsender : ∀ j' s, g.sent[k]? = some (j', s) → j' = j := by
      intro j' s hs
      have hfst := congrArg (fun l : List ι => l[k]?) h.senders
      simp only [List.getElem?_map, hget, hs, Option.map_some, Option.some_inj] at hfst
      exact hfst.symm
    have hgot : ∀ l k', Function.update g.got i (Function.update (g.got i) k true) l k' = true →
        g.got l k' = true ∨ l = i ∧ k' = k := by
      intro l k' hg
      by_cases hl : l = i
      · subst hl
        rw [Function.update_self] at hg
        by_cases hk : k' = k
        · exact .inr ⟨rfl, hk⟩
        · rw [Function.update_of_ne hk] at hg
          exact .inl hg
      · rw [Function.update_of_ne hl] at hg
        exact .inl hg
    have hpeers : w.onPeers i k now = (Trace.entry World.step w ⟨now, .receive i k⟩).after := rfl
    rw [hpeers, hnote]
    have hknown : ∀ l k', Function.update g.got i (Function.update (g.got i) k true) l k' = true →
        k' < g.sent.length := by
      intro l k' hg
      rcases hgot l k' hg with hold | ⟨-, rfl⟩
      · exact h.known l k' hold
      · exact hlt
    by_cases hji : j = i
    · have hstep : (Trace.entry World.step w ⟨now, .receive i k⟩).after = w := by
        simp [World.step, World.onPeers, hget, hji]
      refine h.keep ht (fun l => ?_) (by simp) (by rw [hstep]) rfl rfl rfl hknown ?_
      · rw [hstep]
        exact ⟨Kept.refl _, hsound l⟩
      · intro k' j' s hs l hl hg
        rcases hgot l k' hg with hold | ⟨rfl, rfl⟩
        · exact .inl hold
        · exact absurd ((hsender j' s hs).trans hji).symm hl
    · have hstep : (Trace.entry World.step w ⟨now, .receive i k⟩).after =
          w.put i ((w.sm i).onFrame now f) := by
        simp [World.step, World.onPeers, hget, hji]
      obtain ⟨hkept, hsound', hact⟩ := onFrame_spec (hsound i) f
      refine h.keep ht (fun l => h.put ht hstep ⟨hkept, hsound'⟩ l) (by simp) (by rw [hstep]; rfl)
        rfl rfl rfl hknown ?_
      intro k' j' s hs l _ hg
      rcases hgot l k' hg with hold | ⟨rfl, rfl⟩
      · exact .inl hold
      · refine .inr ?_
        rw [hstep, put_sm, Function.update_self, hact]
        exact UInt64.le_trans (h.times _ (List.mem_of_getElem? hs)) ht.order

theorem good_step (h : Inv cfg T w g hist) (e : Event ι)
    (ht : Timely T D g (Trace.entry World.step w e)) :
    Inv cfg T (w.step e).1 (g.note e (w.step e).2) (hist ++ [Trace.entry World.step w e]) := by
  obtain ⟨now, call⟩ := e
  have hsound : ∀ i, Sound (w.sm i) now := fun i => (h.sound i).later ht.order
  -- A call on one node that leaves the messages alone, and who has got them.
  have hcall : ∀ (i : ι) (n : Nm), (∀ a, call ≠ .tick a) →
      w.step ⟨now, call⟩ = (w.put i n, .quiet) → g.note ⟨now, call⟩ .quiet = { g with clock := now } →
      Kept (w.sm i) n ∧ Sound n now →
      Inv cfg T (w.step ⟨now, call⟩).1 (g.note ⟨now, call⟩ (w.step ⟨now, call⟩).2)
        (hist ++ [Trace.entry World.step w ⟨now, call⟩]) := by
    intro i n hnot hstep hnote hn
    rw [hstep, hnote]
    have hafter : (Trace.entry World.step w ⟨now, call⟩).after = w.put i n := by
      rw [Trace.entry_after, hstep]
    rw [← hafter]
    refine h.keep ht (fun j => h.put ht hafter hn j) hnot (by rw [hafter]; rfl) rfl rfl rfl h.known ?_
    intro k i s _ j _ hg
    exact .inl hg
  cases call with
  | request i => exact hcall i _ (by simp) rfl rfl (request_spec (hsound i))
  | release i => exact hcall i _ (by simp) rfl rfl (release_spec (hsound i))
  | hold i on => exact hcall i _ (by simp) rfl rfl (hold_spec (hsound i) on)
  | tick i => exact good_tick h ht
  | receive i k => exact good_receive h ht

omit [DecidableEq ι] in
/-- A node that wants the network has been heard by each other within the timeout. -/
theorem Inv.heard_of_requesting (h : Inv cfg T w g hist) (ht : Timely T D g x) {a b : ι}
    (hab : a ≠ b) (hr : Requesting (cfg a).msgCycleUs.toNat T D a x.event.now hist) :
    x.event.now.toNat ≤
      (w.sm b).lastActivityUs.toNat + (cfg a).msgCycleUs.toNat + T + D := by
  obtain ⟨h₁, y, h₂, heq, ⟨hlong, hlonger⟩, hwants⟩ := hr
  have hspacing := ht.spacing a
  -- a tick of the node comes less than a delay and a spacing ago, and more than a delay
  obtain ⟨z, hz, hcall, hbefore, hafter⟩ :=
    h.window h₁ y h₂ heq a (x.event.now.toNat - D) (by omega) (by omega)
  obtain ⟨s, hs, hle, hcycle⟩ := h.cycle z (by simp [heq, hz]) a hcall
    (hwants z (List.mem_cons_of_mem _ hz))
  have hle' := UInt64.le_iff_toNat_le.mp hle
  obtain ⟨k, hk⟩ := List.getElem?_of_mem hs
  have hgot : g.got b k = true := by
    by_contra hnot
    have hlate := ht.delay k a s hk b (Ne.symm hab) (by simpa using hnot)
    omega
  have hheard := UInt64.le_iff_toNat_le.mp (h.heard k a s hk b (Ne.symm hab) hgot)
  omega

/-- Only a tick puts a node to sleep, when it has heard nothing for its timeout. -/
theorem Inv.asleep_quiet (h : Inv cfg T w g hist) (e : Event ι)
    (ht : Timely T D g (Trace.entry World.step w e)) {b : ι}
    (hasleep : ((w.step e).1.sm b).state.Asleep)
    (hne : ((w.step e).1.sm b).state ≠ (w.sm b).state) :
    (w.sm b).lastActivityUs.toNat + (cfg b).timeoutUs.toNat ≤ e.now.toNat := by
  have hsound : ∀ i, Sound (w.sm i) e.now := fun i => (h.sound i).later ht.order
  by_cases hcall : ∃ i, e.call = .tick i
  · obtain ⟨i, hi⟩ := hcall
    have hsm : (w.step e).1.sm = Function.update w.sm i ((w.sm i).tick e.now).1 := by
      simp only [World.step, hi]
      exact produce_sm w i e.now
    rw [hsm] at hasleep hne
    by_cases hb : b = i
    · subst hb
      rw [Function.update_self] at hasleep hne
      rw [← h.timings]
      exact (tick_spec (hsound b)).asleep hne hasleep
    · rw [Function.update_of_ne hb] at hne
      exact absurd rfl hne
  · have hkept := kept_step hsound (fun a ha => hcall ⟨a, ha⟩) b
    exact absurd (hkept.asleep hasleep) hne

end Steps

/-- The nodes before any of them was called. -/
def World.start (cfg : ι → Timings) (nodeId : ι → UInt8) (pnLocal : ι → UInt64) : World ι where
  nodes := fun i => { nodeId := nodeId i, pnLocal := pnLocal i, sm := { cfg := cfg i } }

/-- No node falls asleep while another requests the network, when the timeout is longer than a
message cycle, a tick spacing and a delay. -/
theorem sleep_coordinated (cfg : ι → Timings) (T D : ℕ)
    (htimeout : ∀ a b, (cfg a).msgCycleUs.toNat + T + D < (cfg b).timeoutUs.toNat)
    (nodeId : ι → UInt8) (pnLocal : ι → UInt64) (start : UInt64) (es : List (Event ι))
    (ht : Trace.Along (fun hist x => Timely T D (log start hist) x)
      (Trace.history World.step (World.start cfg nodeId pnLocal) es)) :
    Trace.Along (Coordinated cfg T D)
      (Trace.history World.step (World.start cfg nodeId pnLocal) es) := by
  have hstart : Inv cfg T (World.start cfg nodeId pnLocal) (log start []) [] := by
    constructor
    case timings => exact fun i => rfl
    case sound =>
      intro i
      constructor <;> simp [World.start, World.sm, Nm.wanted, log]
    case senders => rfl
    case times => simp [log]
    case ticks => exact fun i => UInt64.le_refl _
    case past => simp
    case announced => simp [World.start, World.sm, State.Active]
    case known => simp [log]
    case heard => simp [log]
    case cycle => simp
    case window => simp
  refine (Trace.run_along (I := fun w hist => Inv cfg T w (log start hist) hist) hstart ?_ es ht).2
  intro es e h hx
  have hinv := good_step h e hx
  rw [log_snoc]
  refine ⟨hinv, ?_, ?_⟩
  · intro b hasleep hne a hab hr
    have hquiet := h.asleep_quiet e hx hasleep hne
    have hheard := h.heard_of_requesting hx hab hr
    have hlong := htimeout a b
    rw [Trace.entry_event] at hheard
    omega
  · intro b hstate
    have hwanted := (hinv.sound b).wanted
    have hfree : ((World.step (Trace.final World.step (World.start cfg nodeId pnLocal) es) e).1.sm
        b).wanted = false := by
      by_contra hw
      have hactive := (active_iff _).mp (hwanted (by simpa using hw))
      exact hactive.1 hstate
    simpa [Nm.wanted] using hfree

/-! ### Two nodes -/

/-- On a history at hand. -/
theorem Timely.of_get {T D : ℕ} {g : Log Bool} {x : Step Bool}
    (h : g.clock ≤ x.event.now ∧ (∀ i, x.event.now.toNat ≤ (g.lastTick i).toNat + T) ∧
      ∀ (k : Fin g.sent.length) (j : Bool), j ≠ (g.sent.get k).1 → g.got j k = false →
        x.event.now.toNat ≤ (g.sent.get k).2.toNat + D) : Timely T D g x := by
  refine ⟨h.1, h.2.1, ?_⟩
  intro k i s hk j hj hg
  obtain ⟨hlt, heq⟩ := List.getElem?_eq_some_iff.mp hk
  have hdelay := h.2.2 ⟨k, hlt⟩ j
  rw [List.get_eq_getElem, heq] at hdelay
  exact hdelay hj hg

def benchTimings : Timings where
  msgCycleUs := 100
  timeoutUs := 300
  repeatUs := 200
  waitSleepUs := 150

/-- One node requests the network, and the other follows it. -/
def benchRequest : List (Event Bool) :=
  [⟨0, .request true⟩, ⟨0, .tick true⟩, ⟨0, .tick false⟩, ⟨10, .receive false 0⟩,
    ⟨50, .tick false⟩, ⟨60, .receive true 1⟩, ⟨100, .tick true⟩, ⟨150, .tick false⟩,
    ⟨150, .receive false 2⟩, ⟨200, .receive true 3⟩, ⟨200, .tick true⟩, ⟨250, .tick false⟩]

theorem sleep_coordinated_bench :
    Trace.Along (Coordinated (fun _ => benchTimings) 100 50)
      (Trace.history World.step
        (World.start (fun _ : Bool => benchTimings) (fun i => if i then 1 else 2) fun _ => 0)
        benchRequest) := by
  refine sleep_coordinated (fun _ => benchTimings) 100 50 (by decide) _ _ 0 benchRequest
    (Trace.along_of_get ?_)
  intro i
  apply Timely.of_get
  revert i
  decide

end BloblyEmb.Network
