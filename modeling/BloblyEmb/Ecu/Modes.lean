import Mathlib.Data.List.Induction
import Mathlib.Logic.Function.Basic
import Mathlib.Tactic.Common
import Mathlib.Algebra.Order.Group.Nat
import Mathlib.Algebra.Order.Ring.Int

/-!
# Modes of the ECU

The lifecycle (`ecu`) moves between start-up, run, sleep and shutdown by the demands of each tick. The
arbiter resolves the requests of a mode group by their priorities.
-/
namespace BloblyEmb.Ecu

inductive Mode where
  | startup
  | run
  | prepareSleep
  | sleep
  | shutdown
deriving DecidableEq

/-- What a tick demands. -/
structure Demand where
  initDone : Bool
  networkBusy : Bool
  diagActive : Bool
  appBusy : Bool
  wakeup : Bool
  shutdownReq : Bool

def Demand.anyDemand (d : Demand) : Bool := d.networkBusy || d.diagActive || d.appBusy

/-- `Lifecycle.step` -/
def Mode.step (m : Mode) (d : Demand) : Mode :=
  match m with
  | .startup => if d.shutdownReq then .shutdown else if d.initDone then .run else .startup
  | .run => if d.shutdownReq then .shutdown else if !d.anyDemand then .prepareSleep else .run
  | .prepareSleep => if d.shutdownReq then .shutdown else if d.anyDemand then .run else .sleep
  | .sleep => if d.shutdownReq then .shutdown else if d.wakeup || d.anyDemand then .run else .sleep
  | .shutdown => .shutdown

/-- The mode after the ticks of a lifecycle. -/
def modeAfter (ds : List Demand) : Mode := ds.foldl Mode.step .startup

/-- A tick that keeps a sleeping ECU asleep. -/
def Demand.quiet (d : Demand) : Bool := !d.shutdownReq && !d.anyDemand && !d.wakeup

/-- A tick on which a running ECU has nothing to do. -/
def Demand.idle (d : Demand) : Bool := !d.shutdownReq && !d.anyDemand

section Lifecycle

@[simp] theorem modeAfter_snoc (ds : List Demand) (d : Demand) :
    modeAfter (ds ++ [d]) = (modeAfter ds).step d := by
  simp [modeAfter, List.foldl_append]

theorem step_shutdown (m : Mode) (d : Demand) :
    m.step d = .shutdown ↔ m = .shutdown ∨ d.shutdownReq = true := by
  cases m <;> cases hs : d.shutdownReq <;> simp [Mode.step, hs] <;> split <;> simp

theorem step_startup (m : Mode) (d : Demand) :
    m.step d = .startup ↔ m = .startup ∧ d.shutdownReq = false ∧ d.initDone = false := by
  cases m <;> cases hs : d.shutdownReq <;> simp [Mode.step, hs] <;> split <;> simp_all

theorem step_prepareSleep (m : Mode) (d : Demand) :
    m.step d = .prepareSleep ↔ m = .run ∧ d.idle = true := by
  cases m <;> cases hs : d.shutdownReq <;> simp [Mode.step, Demand.idle, hs] <;> split <;> simp_all

theorem step_sleep (m : Mode) (d : Demand) :
    m.step d = .sleep ↔ (m = .prepareSleep ∧ d.idle = true) ∨ (m = .sleep ∧ d.quiet = true) := by
  cases m <;> cases hs : d.shutdownReq <;> cases ha : d.anyDemand <;> cases hw : d.wakeup <;>
    cases hi : d.initDone <;> simp [Mode.step, Demand.idle, Demand.quiet, hs, ha, hw, hi]

/-- Shut down is where a request was. -/
theorem shutdown_iff (ds : List Demand) :
    modeAfter ds = .shutdown ↔ ∃ d ∈ ds, d.shutdownReq = true := by
  induction ds using List.reverseRecOn with
  | nil => simp [modeAfter]
  | append_singleton ds d ih =>
    rw [modeAfter_snoc, step_shutdown, ih]
    simp only [List.mem_append, List.mem_singleton]
    constructor
    · rintro (⟨d', hmem, hreq⟩ | hreq)
      · exact ⟨d', .inl hmem, hreq⟩
      · exact ⟨d, .inr rfl, hreq⟩
    · rintro ⟨d', hmem | rfl, hreq⟩
      · exact .inl ⟨d', hmem, hreq⟩
      · exact .inr hreq

/-- Start-up lasts until the init is done. -/
theorem startup_iff (ds : List Demand) :
    modeAfter ds = .startup ↔ ∀ d ∈ ds, d.shutdownReq = false ∧ d.initDone = false := by
  induction ds using List.reverseRecOn with
  | nil => simp [modeAfter]
  | append_singleton ds d ih =>
    rw [modeAfter_snoc, step_startup, ih]
    simp only [List.mem_append, List.mem_singleton]
    constructor
    · rintro ⟨hall, hd⟩ d' (hmem | rfl)
      · exact hall d' hmem
      · exact hd
    · intro hall
      exact ⟨fun d' hmem => hall d' (.inl hmem), hall d (.inr rfl)⟩

/-- Preparing for sleep takes one idle tick of a running ECU. -/
theorem prepareSleep_iff (ds : List Demand) :
    modeAfter ds = .prepareSleep ↔ ∃ pre d, ds = pre ++ [d] ∧ modeAfter pre = .run ∧ d.idle = true := by
  induction ds using List.reverseRecOn with
  | nil => simp [modeAfter]
  | append_singleton ds d _ =>
    rw [modeAfter_snoc, step_prepareSleep]
    constructor
    · rintro ⟨hrun, hidle⟩
      exact ⟨ds, d, rfl, hrun, hidle⟩
    · rintro ⟨pre, d', heq, hrun, hidle⟩
      obtain ⟨rfl, heq'⟩ := List.append_inj' heq rfl
      obtain rfl : d = d' := by simpa using heq'
      exact ⟨hrun, hidle⟩

/-- By induction on the ticks: sleep is two idle ticks of a running ECU, and quiet ones since. -/
theorem sleep_iff (ds : List Demand) :
    modeAfter ds = .sleep ↔ ∃ pre a b rest, ds = pre ++ a :: b :: rest ∧ modeAfter pre = .run ∧
      a.idle = true ∧ b.idle = true ∧ ∀ d ∈ rest, d.quiet = true := by
  induction ds using List.reverseRecOn with
  | nil => simp [modeAfter]
  | append_singleton ds d ih =>
    rw [modeAfter_snoc, step_sleep, prepareSleep_iff, ih]
    constructor
    · rintro (⟨⟨pre, a, rfl, hrun, ha⟩, hd⟩ | ⟨⟨pre, a, b, rest, rfl, hrun, ha, hb, hrest⟩, hd⟩)
      · exact ⟨pre, a, d, [], by simp, hrun, ha, hd, by simp⟩
      · refine ⟨pre, a, b, rest ++ [d], by simp, hrun, ha, hb, fun d' hmem => ?_⟩
        rcases List.mem_append.mp hmem with hmem | hmem
        · exact hrest d' hmem
        · rw [List.mem_singleton.mp hmem]
          exact hd
    · rintro ⟨pre, a, b, rest, heq, hrun, ha, hb, hrest⟩
      rcases List.eq_nil_or_concat rest with rfl | ⟨rest', d', rfl⟩
      · have heq' : ds ++ [d] = (pre ++ [a]) ++ [b] := by simpa using heq
        obtain ⟨rfl, hd⟩ := List.append_inj' heq' rfl
        obtain rfl : d = b := by simpa using hd
        exact .inl ⟨⟨pre, a, rfl, hrun, ha⟩, hb⟩
      · have heq' : ds ++ [d] = (pre ++ a :: b :: rest') ++ [d'] := by simpa using heq
        obtain ⟨rfl, hd⟩ := List.append_inj' heq' rfl
        obtain rfl : d = d' := by simpa using hd
        refine .inr ⟨⟨pre, a, b, rest', rfl, hrun, ha, hb, fun d'' hmem => hrest d'' ?_⟩, hrest d ?_⟩
        · simp [hmem]
        · simp

/-- **The lifecycle**, after any demands. It is shut down when that was once requested, and for good;
else it is in start-up while no tick has told that the init is done. Else it runs, unless it sleeps: it
was running and two ticks in a row demanded nothing, and since then no tick demanded anything or woke it;
after the first of the two it prepares to. So one tick that demands something or wakes it is enough to
run again, and none but a shutdown leaves start-up before the init is done. -/
theorem lifecycle (ds : List Demand) :
    (modeAfter ds = .shutdown ↔ ∃ d ∈ ds, d.shutdownReq = true) ∧
    (modeAfter ds = .startup ↔ ∀ d ∈ ds, d.shutdownReq = false ∧ d.initDone = false) ∧
    (modeAfter ds = .prepareSleep ↔ ∃ pre d, ds = pre ++ [d] ∧ modeAfter pre = .run ∧
      d.idle = true) ∧
    (modeAfter ds = .sleep ↔ ∃ pre a b rest, ds = pre ++ a :: b :: rest ∧ modeAfter pre = .run ∧
      a.idle = true ∧ b.idle = true ∧ ∀ d ∈ rest, d.quiet = true) ∧
    ∀ d, d.shutdownReq = false → modeAfter ds ≠ .startup → modeAfter ds ≠ .shutdown →
      (d.anyDemand = true ∨ (modeAfter ds = .sleep ∧ d.wakeup = true)) →
        modeAfter (ds ++ [d]) = .run := by
  refine ⟨shutdown_iff ds, startup_iff ds, prepareSleep_iff ds, sleep_iff ds,
    fun d hreq hstart hshut hwake => ?_⟩
  rw [modeAfter_snoc]
  cases hm : modeAfter ds with
  | startup => exact absurd hm hstart
  | shutdown => exact absurd hm hshut
  | run => simp_all [Mode.step]
  | prepareSleep => simp_all [Mode.step]
  | sleep => rcases hwake with hwake | ⟨-, hwake⟩ <;> simp [Mode.step, hreq, hwake]

end Lifecycle

/-! ## Mode groups -/

def maxRequesters : ℕ := 16

structure ModeGroup where
  active : ℤ := 0
  deflt : ℤ := 0
  has : Fin maxRequesters → Bool := fun _ => false
  req : Fin maxRequesters → ℤ := fun _ => 0
  prio : Fin maxRequesters → ℤ := fun _ => 0

/-- `new_group` -/
def newGroup (deflt : ℤ) : ModeGroup := { active := deflt, deflt := deflt }

/-- The slot of a requester. -/
def slotOf (who : ℤ) : Option (Fin maxRequesters) :=
  if h : 0 ≤ who ∧ who < maxRequesters then some ⟨who.toNat, by omega⟩ else none

def ModeGroup.request (g : ModeGroup) (who mode prio : ℤ) : ModeGroup :=
  match slotOf who with
  | none => g
  | some i => { g with
      has := Function.update g.has i true
      req := Function.update g.req i mode
      prio := Function.update g.prio i prio }

def ModeGroup.release (g : ModeGroup) (who : ℤ) : ModeGroup :=
  match slotOf who with
  | none => g
  | some i => { g with has := Function.update g.has i false }

/-- What the loop of `resolve` has found. -/
structure Choice where
  best : ℤ := -2147483648
  chosen : ℤ
  any : Bool := false

def ModeGroup.look (g : ModeGroup) (c : Choice) (i : Fin maxRequesters) : Choice :=
  if g.has i ∧ g.prio i > c.best then ⟨g.prio i, g.req i, true⟩ else c

def ModeGroup.resolve (g : ModeGroup) : ℤ × ModeGroup :=
  let c := (List.finRange maxRequesters).foldl g.look { chosen := g.deflt }
  let active := if c.any then c.chosen else g.deflt
  (active, { g with active := active })

/-! ## Arbitration -/

/-- What the requesters do. -/
inductive Act where
  | request (who mode prio : ℤ)
  | release (who : ℤ)
  | resolve

def ModeGroup.act (g : ModeGroup) : Act → ModeGroup
  | .request who mode prio => g.request who mode prio
  | .release who => g.release who
  | .resolve => g.resolve.2

/-- The request of a requester that stands after an act: its mode and priority. -/
def standing (i : Fin maxRequesters) (s : Option (ℤ × ℤ)) : Act → Option (ℤ × ℤ)
  | .request who mode prio => if slotOf who = some i then some (mode, prio) else s
  | .release who => if slotOf who = some i then none else s
  | .resolve => s

/-- And after several. -/
def stands (as : List Act) (i : Fin maxRequesters) : Option (ℤ × ℤ) := as.foldl (standing i) none

/-- The lowest priority. -/
def lowest : ℤ := -2147483648

theorem request_none {g : ModeGroup} {who : ℤ} (h : slotOf who = none) (mode prio : ℤ) :
    g.request who mode prio = g := by
  rw [ModeGroup.request, h]

theorem request_some {g : ModeGroup} {who : ℤ} {k : Fin maxRequesters} (h : slotOf who = some k)
    (mode prio : ℤ) : g.request who mode prio = { g with
      has := Function.update g.has k true
      req := Function.update g.req k mode
      prio := Function.update g.prio k prio } := by
  rw [ModeGroup.request, h]

theorem release_none {g : ModeGroup} {who : ℤ} (h : slotOf who = none) : g.release who = g := by
  rw [ModeGroup.release, h]

theorem release_some {g : ModeGroup} {who : ℤ} {k : Fin maxRequesters} (h : slotOf who = some k) :
    g.release who = { g with has := Function.update g.has k false } := by
  rw [ModeGroup.release, h]

theorem act_deflt (g : ModeGroup) (a : Act) : (g.act a).deflt = g.deflt := by
  cases a with
  | resolve => rfl
  | request who mode prio =>
    rw [ModeGroup.act]
    cases hslot : slotOf who with
    | none => rw [request_none hslot]
    | some k => rw [request_some hslot]
  | release who =>
    rw [ModeGroup.act]
    cases hslot : slotOf who with
    | none => rw [release_none hslot]
    | some k => rw [release_some hslot]

/-- The request in a slot. -/
def ModeGroup.held (g : ModeGroup) (i : Fin maxRequesters) : Option (ℤ × ℤ) :=
  if g.has i then some (g.req i, g.prio i) else none

/-- An act leaves in a slot what stands of it. -/
theorem act_held (g : ModeGroup) (i : Fin maxRequesters) (a : Act) :
    (g.act a).held i = standing i (g.held i) a := by
  cases a with
  | resolve => rfl
  | request who mode prio =>
    rw [ModeGroup.act, standing]
    cases hslot : slotOf who with
    | none => rw [request_none hslot, if_neg (by simp)]
    | some k =>
      rw [request_some hslot, ModeGroup.held]
      dsimp only
      by_cases hik : i = k
      · subst hik
        simp
      · have hki : some k ≠ some i := fun h => hik (Option.some.inj h).symm
        simp only [if_neg hki, Function.update_of_ne hik, ModeGroup.held]
  | release who =>
    rw [ModeGroup.act, standing]
    cases hslot : slotOf who with
    | none => rw [release_none hslot, if_neg (by simp)]
    | some k =>
      rw [release_some hslot, ModeGroup.held]
      dsimp only
      by_cases hik : i = k
      · subst hik
        simp
      · have hki : some k ≠ some i := fun h => hik (Option.some.inj h).symm
        simp only [if_neg hki, Function.update_of_ne hik, ModeGroup.held]

/-- By induction on the acts: a group holds the requests that stand. -/
theorem acts_stand (deflt : ℤ) (as : List Act) :
    (as.foldl ModeGroup.act (newGroup deflt)).held = stands as ∧
      (as.foldl ModeGroup.act (newGroup deflt)).deflt = deflt := by
  induction as using List.reverseRecOn with
  | nil => exact ⟨rfl, rfl⟩
  | append_singleton as a ih =>
    obtain ⟨hs, hd⟩ := ih
    rw [List.foldl_append, List.foldl_cons, List.foldl_nil, act_deflt]
    refine ⟨funext fun i => ?_, hd⟩
    rw [act_held, hs]
    simp [stands, List.foldl_append]

/-- What a choice is of the requesters looked at: nothing above the lowest priority, or the first of
those with the highest. -/
structure Chosen (g : ModeGroup) (l : List (Fin maxRequesters)) (c : Choice) : Prop where
  best : ∀ i ∈ l, g.has i = true → g.prio i ≤ c.best
  none : c.any = false → c.best = lowest
  some : c.any = true → ∃ i ∈ l, g.has i = true ∧ lowest < g.prio i ∧ g.prio i = c.best ∧
    g.req i = c.chosen ∧ ∀ j ∈ l, j < i → g.has j = true → g.prio j < g.prio i

theorem look_chosen {g : ModeGroup} {l : List (Fin maxRequesters)} {c : Choice} (h : Chosen g l c)
    (hlow : lowest ≤ c.best) {i : Fin maxRequesters} (hi : ∀ j ∈ l, j < i) :
    Chosen g (l ++ [i]) (g.look c i) ∧ lowest ≤ (g.look c i).best := by
  unfold ModeGroup.look
  by_cases hc : g.has i = true ∧ g.prio i > c.best
  · rw [if_pos hc]
    refine ⟨⟨fun j hj hhas => ?_, fun hn => (by cases hn), fun _ => ⟨i, by simp, hc.1, ?_, rfl, rfl,
      fun j hj hlt hhas => ?_⟩⟩, ?_⟩
    · rcases List.mem_append.mp hj with hj | hj
      · exact (h.best j hj hhas).trans hc.2.le
      · rw [List.mem_singleton.mp hj]
    · exact lt_of_le_of_lt hlow hc.2
    · rcases List.mem_append.mp hj with hj | hj
      · exact lt_of_le_of_lt (h.best j hj hhas) hc.2
      · rw [List.mem_singleton.mp hj] at hlt
        exact absurd hlt (Nat.lt_irrefl i.val)
    · exact hlow.trans hc.2.le
  · rw [if_neg hc]
    refine ⟨⟨fun j hj hhas => ?_, h.none, fun ha => ?_⟩, hlow⟩
    · rcases List.mem_append.mp hj with hj | hj
      · exact h.best j hj hhas
      · rw [List.mem_singleton.mp hj] at hhas ⊢
        exact not_lt.mp fun hlt => hc ⟨hhas, hlt⟩
    · obtain ⟨k, hk, hhas, hl, hp, hr, hfirst⟩ := h.some ha
      refine ⟨k, List.mem_append_left _ hk, hhas, hl, hp, hr, fun j hj hlt hj' => ?_⟩
      rcases List.mem_append.mp hj with hj | hj
      · exact hfirst j hj hlt hj'
      · rw [List.mem_singleton.mp hj] at hlt
        exact absurd hlt (Nat.lt_asymm (hi k hk))

/-- By induction on the requesters in order. -/
theorem looks_chosen (g : ModeGroup) (l : List (Fin maxRequesters)) (hl : l.Pairwise (· < ·)) :
    Chosen g l (l.foldl g.look { chosen := g.deflt }) ∧
      lowest ≤ (l.foldl g.look { chosen := g.deflt }).best := by
  induction l using List.reverseRecOn with
  | nil =>
    exact ⟨⟨fun i hi => absurd hi List.not_mem_nil, fun _ => rfl, fun h => (by cases h)⟩,
      le_of_eq rfl⟩
  | append_singleton l i ih =>
    rw [List.pairwise_append] at hl
    obtain ⟨h1, -, h2⟩ := hl
    obtain ⟨hch, hlow⟩ := ih h1
    rw [List.foldl_append, List.foldl_cons, List.foldl_nil]
    exact look_chosen hch hlow fun j hj => h2 j hj i (List.mem_singleton_self i)

/-- **Arbitration.** After any requests, releases and resolves, of requesters within the table or not,
a resolve publishes the mode of the standing request with the highest priority, the lowest requester's
of those; without one above the lowest priority it publishes the default. -/
theorem arbitration (deflt : ℤ) (as : List Act) :
    ∃ m, (as.foldl ModeGroup.act (newGroup deflt)).resolve.1 = m ∧
      (as.foldl ModeGroup.act (newGroup deflt)).resolve.2.active = m ∧
      ((∃ i p, stands as i = some (m, p) ∧ lowest < p ∧ ∀ j m' q, stands as j = some (m', q) →
          q ≤ p ∧ (j < i → q < p)) ∨
        (m = deflt ∧ ∀ j m' q, stands as j = some (m', q) → q ≤ lowest)) := by
  obtain ⟨hstands, hdeflt⟩ := acts_stand deflt as
  generalize as.foldl ModeGroup.act (newGroup deflt) = g at hstands hdeflt ⊢
  obtain ⟨hch, -⟩ := looks_chosen g (List.finRange maxRequesters) (List.pairwise_lt_finRange _)
  refine ⟨_, rfl, rfl, ?_⟩
  unfold ModeGroup.resolve
  dsimp only
  generalize (List.finRange maxRequesters).foldl g.look { chosen := g.deflt } = c at hch ⊢
  have hheld : ∀ j m' q, stands as j = some (m', q) → g.has j = true ∧ g.prio j = q := by
    intro j m' q hj
    rw [← hstands, ModeGroup.held] at hj
    by_cases hhas : g.has j = true
    · rw [if_pos hhas, Option.some.injEq, Prod.mk.injEq] at hj
      exact ⟨hhas, hj.2⟩
    · rw [if_neg hhas] at hj
      cases hj
  cases hany : c.any with
  | true =>
    obtain ⟨i, -, hhas, hlow, hp, hr, hfirst⟩ := hch.some hany
    refine .inl ⟨i, g.prio i, ?_, hlow, fun j m' q hj => ?_⟩
    · rw [← hstands, ModeGroup.held, if_pos hhas, hr, if_pos rfl]
    · obtain ⟨hj', rfl⟩ := hheld j m' q hj
      exact ⟨hp ▸ hch.best j (List.mem_finRange j) hj',
        fun hlt => hfirst j (List.mem_finRange j) hlt hj'⟩
  | false =>
    refine .inr ⟨by rw [if_neg (by decide), hdeflt], fun j m' q hj => ?_⟩
    obtain ⟨hj', rfl⟩ := hheld j m' q hj
    exact (hch.best j (List.mem_finRange j) hj').trans (hch.none hany).le

end BloblyEmb.Ecu
