import BloblyEmb.Diagroute.Router
import BloblyEmb.Lib.Trace

/-!
# Who may route

The router holds a grant once a tester held the level on the gateway's own server. The grant ends
with the connection (`cancel`), or with the first request of another one.
-/
namespace BloblyEmb.Diagroute
open Router Diag
open Isotp (maxPayload)

/-! ## What the grant is made of -/

namespace Router

variable (r : Router)

structure SameGrant (r r' : Router) : Prop where
  routes : r'.routes = r.routes
  level : r'.level = r.level
  granted : r'.granted = r.granted
  bound : r'.bound = r.bound
  conn : r'.grantConn = r.grantConn

theorem SameGrant.refl : SameGrant r r := ⟨rfl, rfl, rfl, rfl, rfl⟩

variable {r}

theorem SameGrant.trans {r' r'' : Router} (h : SameGrant r r') (h' : SameGrant r' r'') :
    SameGrant r r'' where
  routes := h'.routes.trans h.routes
  level := h'.level.trans h.level
  granted := h'.granted.trans h.granted
  bound := h'.bound.trans h.bound
  conn := h'.conn.trans h.conn

theorem grant_settle (r : Router) (now : UInt64) : SameGrant r (r.settle now) := by
  simp only [settle]
  split
  · exact .refl r
  split <;> exact ⟨rfl, rfl, rfl, rfl, rfl⟩

theorem grant_overdue (r : Router) (now : UInt64) : SameGrant r (r.overdue now) := by
  simp only [overdue]
  split <;> exact ⟨rfl, rfl, rfl, rfl, rfl⟩

theorem grant_step (r : Router) (now : UInt64) : SameGrant r (r.step now) := by
  have htick : SameGrant r { r with link := r.link.tick now } := ⟨rfl, rfl, rfl, rfl, rfl⟩
  have hsettle := htick.trans (grant_settle _ now)
  simp only [step]
  split
  · exact htick
  split
  · exact hsettle
  split
  · exact hsettle.trans ⟨rfl, rfl, rfl, rfl, rfl⟩
  · exact hsettle.trans (grant_overdue _ now)

theorem grant_collect (r : Router) (now : UInt64) : SameGrant r (r.collect now) := by
  simp only [collect]
  split
  · exact ⟨rfl, rfl, rfl, rfl, rfl⟩
  split
  · exact ⟨rfl, rfl, rfl, rfl, rfl⟩
  split
  · exact ⟨rfl, rfl, rfl, rfl, rfl⟩
  split
  · exact ⟨rfl, rfl, rfl, rfl, rfl⟩
  split <;> exact ⟨rfl, rfl, rfl, rfl, rfl⟩

theorem grant_intake (r : Router) (f : Frame) (now : UInt64) : SameGrant r (r.intake f now) := by
  have htaken : SameGrant r { r with link := (takeFrame r.link now f).2 } :=
    ⟨rfl, rfl, rfl, rfl, rfl⟩
  have hcollect : SameGrant r (if (takeFrame r.link now f).1 then
      ({ r with link := (takeFrame r.link now f).2 } : Router).collect now
      else { r with link := (takeFrame r.link now f).2 }) := by
    split
    · exact htaken.trans (grant_collect _ now)
    · exact htaken
  have hstamp : ∀ r' : Router, SameGrant r r' → SameGrant r
      (if r'.link.progress ≠ r.link.progress then { r' with movedAt := now } else r') := by
    intro r' h
    split
    · exact h.trans ⟨rfl, rfl, rfl, rfl, rfl⟩
    · exact h
  exact hstamp _ hcollect

theorem grant_onFrame (r : Router) (bus : UInt8) (f : Frame) (now : UInt64) :
    SameGrant r (r.onFrame bus f now) := by
  have hstep := grant_step r now
  simp only [onFrame]
  split
  · exact .refl r
  split
  · exact hstep
  split
  · exact hstep
  · exact hstep.trans (grant_intake _ f now)

theorem grant_pumpAll (txId : UInt32) (now : UInt64) (channel : List Bool) (r : Router) :
    SameGrant r (r.pumpAll txId now channel).1 := by
  induction channel generalizing r with
  | nil => exact grant_settle r now
  | cons ok rest ih =>
    have hnext : SameGrant r { r with link := (nextFrame r.link txId now).2 } :=
      ⟨rfl, rfl, rfl, rfl, rfl⟩
    simp only [pumpAll]
    split
    · exact hnext.trans (grant_settle _ now)
    split
    · exact ⟨rfl, rfl, rfl, rfl, rfl⟩
    · have hmoved : SameGrant r
          { r with link := (nextFrame r.link txId now).2, movedAt := now } :=
        ⟨rfl, rfl, rfl, rfl, rfl⟩
      exact hmoved.trans (ih _)

theorem grant_pump (r : Router) (now : UInt64) (channel : List Bool) :
    SameGrant r (r.pump now channel).1 := by
  simp only [pump]
  split
  · exact .refl r
  · exact grant_pumpAll _ now channel r

theorem grant_room (r : Router) (now : UInt64) : SameGrant r (r.room now).2 := by
  simp only [room]
  split
  · exact ⟨rfl, rfl, rfl, rfl, rfl⟩
  split <;> exact ⟨rfl, rfl, rfl, rfl, rfl⟩

theorem grant_pop (r : Router) : SameGrant r r.pop := by
  simp only [pop]
  split <;> exact ⟨rfl, rfl, rfl, rfl, rfl⟩

theorem grant_begin (r : Router) (idx : ℕ) (req : List UInt8) (ticket : UInt32) (now : UInt64) :
    SameGrant r (r.begin idx req ticket now).2 := by
  simp only [begin]
  split <;> exact ⟨rfl, rfl, rfl, rfl, rfl⟩

/-- The router looks at the connection of a request that names a route and has a length. -/
def judges (r : Router) (idx : ℤ) (req : List UInt8) : Prop :=
  ¬(idx < 0 ∨ r.routes.length ≤ idx) ∧ ¬(req.length < 1 ∨ maxPayload < req.length)

instance (r : Router) (idx : ℤ) (req : List UInt8) : Decidable (r.judges idx req) :=
  inferInstanceAs (Decidable (_ ∧ _))

/-- What a request does to the grant. -/
theorem grant_accept (r : Router) (idx : ℤ) (req : List UInt8) (conn ticket : UInt32)
    (unlocked : UInt8) (now : UInt64) :
    if r.judges idx req then
      SameGrant ((r.step now).bindRoute conn unlocked)
          (r.accept idx req conn ticket unlocked now).2 ∧
        ((r.accept idx req conn ticket unlocked now).1 = .accepted →
          ((r.step now).bindRoute conn unlocked).granted = true)
    else SameGrant r (r.accept idx req conn ticket unlocked now).2 ∧
      (r.accept idx req conn ticket unlocked now).1 ≠ .accepted := by
  have hstep := grant_step r now
  by_cases hj : r.judges idx req
  · obtain ⟨hidx, hlen⟩ := hj
    rw [if_pos ⟨hidx, hlen⟩]
    rw [← hstep.routes] at hidx
    simp only [accept, if_neg hidx, if_neg hlen]
    by_cases hg : ((r.step now).bindRoute conn unlocked).granted = true
    · simp only [hg, not_true_eq_false, if_false, implies_true, and_true]
      split
      · exact .refl _
      · exact grant_begin ..
    · simp only [hg]
      exact ⟨.refl _, nofun⟩
  · rw [if_neg hj]
    simp only [accept]
    split
    · exact ⟨hstep, nofun⟩
    · rename_i hidx
      split
      · exact ⟨hstep, nofun⟩
      · rename_i hlen
        exact absurd ⟨hstep.routes ▸ hidx, hlen⟩ hj

end Router

/-! ## Who a step is of -/

/-- An event, and the connection of the tester that was there: one count for each, whatever identity
it goes by. -/
abbrev Owned := ℕ × Event

def applyFor (r : Router) (e : Owned) : Router × Option Verdict := apply r e.2

abbrev Step := Trace.Entry Router Owned (Option Verdict)

/-- The identity that a request names, where the router looks at it. -/
def named (x : Step) : Option UInt32 :=
  match x.event.2 with
  | .accept idx req conn _ _ _ => if x.before.judges idx req then some conn else none
  | _ => none

/-- The step brings the level before the router. -/
def Presents (level : UInt8) (x : Step) : Prop :=
  match x.event.2 with
  | .accept idx req _ _ unlocked _ => x.before.judges idx req ∧ unlocked = level
  | .hold unlocked => unlocked = level
  | _ => False

/-- No end of a connection, and no request of another. -/
def Undisturbed (conn : UInt32) (x : Step) : Prop :=
  x.event.2 ≠ .cancel ∧ ∀ c ∈ named x, c = conn

/-- The owner ends the router's connection between two testers. -/
def Separated (hist : List Step) : Prop :=
  ∀ h₁ y h₂ z h₃, hist = h₁ ++ y :: (h₂ ++ z :: h₃) → y.event.1 ≠ z.event.1 →
    ∃ m ∈ y :: (h₂ ++ [z]), m.event.2 = .cancel

/-- A request that was accepted. -/
structure Authorised (level : UInt8) (hist : List Step) (x : Step) (conn : UInt32) : Prop where
  guarded : level ≠ 0
  /-- The level was there since the connection began. -/
  since : Trace.Since (Undisturbed conn) (Presents level) (hist ++ [x])
  /-- It was there for the tester whose request it is, whoever shares an identity. -/
  own : Separated (hist ++ [x]) →
    Trace.Since (fun y => Undisturbed conn y ∧ y.event.1 = x.event.1) (Presents level) (hist ++ [x])

/-- What every step of a run meets. -/
def OnlyOwn (level : UInt8) (hist : List Step) (x : Step) : Prop :=
  ∀ idx req conn ticket unlocked now, x.event.2 = .accept idx req conn ticket unlocked now →
    x.label = some .accepted → Authorised level hist x conn

/-! ## The invariant -/

structure Grant (level : UInt8) (r : Router) (hist : List Step) : Prop where
  guard : r.level = level
  bound : r.bound = true → r.granted = true
  /-- A grant has its request or its hold, and names the connection once it is bound. -/
  source : r.granted = true → level ≠ 0 ∧
    Trace.Since (fun y => y.event.2 ≠ .cancel ∧
      ∀ c ∈ named y, r.bound = true ∧ c = r.grantConn) (Presents level) hist

/-- The router's answer to a request that it judges. -/
theorem bind_spec (r : Router) (conn : UInt32) (unlocked : UInt8)
    (hb : r.bound = true → r.granted = true) :
    (r.bindRoute conn unlocked).level = r.level ∧
      (r.bindRoute conn unlocked).bound = (r.bindRoute conn unlocked).granted ∧
      ((r.bindRoute conn unlocked).granted = true → (r.bindRoute conn unlocked).grantConn = conn ∧
        (r.granted = true ∧ (r.bound = true → r.grantConn = conn) ∨
          r.level ≠ 0 ∧ unlocked = r.level)) := by
  simp only [bindRoute, hold]
  by_cases hg : r.granted = true <;> by_cases hbound : r.bound = true <;>
    by_cases hc : r.grantConn = conn <;> by_cases hl : r.level = 0 <;>
    by_cases hu : unlocked = r.level <;> simp_all

namespace Grant

variable {level : UInt8} {r r' : Router} {hist : List Step} {x : Step}

/-- A step that leaves the grant alone. -/
theorem keep (h : Grant level r hist) (hs : SameGrant r r') (hcancel : x.event.2 ≠ .cancel)
    (hnamed : named x = none) : Grant level r' (hist ++ [x]) := by
  refine ⟨hs.level.trans h.guard, ?_, ?_⟩
  · rw [hs.bound, hs.granted]
    exact h.bound
  · intro hg
    rw [hs.granted] at hg
    obtain ⟨hl, hsince⟩ := h.source hg
    rw [hs.bound, hs.conn]
    exact ⟨hl, hsince.snoc ⟨hcancel, by simp [hnamed]⟩⟩

theorem held (h : Grant level r hist) {unlocked : UInt8} (hx : x.event.2 = .hold unlocked) :
    Grant level (r.hold unlocked) (hist ++ [x]) := by
  have hcancel : x.event.2 ≠ .cancel := by simp [hx]
  have hnamed : named x = none := by simp [named, hx]
  by_cases hu : r.level ≠ 0 ∧ unlocked = r.level
  · simp only [hold, if_pos hu]
    refine ⟨h.guard, fun _ => rfl, ?_⟩
    intro _
    have hp : Presents level x := by simp [Presents, hx, hu.2, h.guard]
    exact ⟨h.guard ▸ hu.1, .now hist hp ⟨hcancel, by simp [hnamed]⟩⟩
  · simp only [hold, if_neg hu]
    exact h.keep (.refl r) hcancel hnamed

/-- A request that is judged binds the grant to its connection, or takes it away. -/
theorem judged (h : Grant level r hist) {idx : ℤ} {req : List UInt8} {conn ticket : UInt32}
    {unlocked : UInt8} {now : UInt64} (hx : x.event.2 = .accept idx req conn ticket unlocked now)
    (hbefore : x.before = r) (hj : r.judges idx req)
    (hs : SameGrant ((r.step now).bindRoute conn unlocked) r') :
    Grant level r' (hist ++ [x]) ∧ (r'.granted = true → r'.grantConn = conn) := by
  have hcancel : x.event.2 ≠ .cancel := by simp [hx]
  have hnamed : named x = some conn := by simp [named, hx, hbefore, hj]
  have hstep := grant_step r now
  have hb : (r.step now).bound = true → (r.step now).granted = true := by
    rw [hstep.bound, hstep.granted]
    exact h.bound
  obtain ⟨hlevel, hbg, hsource⟩ := bind_spec (r.step now) conn unlocked hb
  rw [← hs.granted, ← hs.bound] at hbg
  rw [← hs.granted, ← hs.conn, hstep.granted, hstep.bound, hstep.conn, hstep.level] at hsource
  refine ⟨⟨?_, ?_, ?_⟩, fun hg => (hsource hg).1⟩
  · rw [hs.level, hlevel, hstep.level, h.guard]
  · rw [hbg]
    exact id
  · intro hg
    obtain ⟨hconn, hwhy⟩ := hsource hg
    have hquiet : x.event.2 ≠ .cancel ∧ ∀ c ∈ named x, r'.bound = true ∧ c = r'.grantConn := by
      refine ⟨hcancel, ?_⟩
      intro c hc
      rw [hnamed, Option.mem_some_iff] at hc
      exact ⟨hbg.trans hg, hc ▸ hconn.symm⟩
    rcases hwhy with ⟨hgranted, hsame⟩ | ⟨hl, hu⟩
    · obtain ⟨hl, hsince⟩ := h.source hgranted
      refine ⟨hl, (hsince.imp ?_).snoc hquiet⟩
      rintro y ⟨hy, hall⟩
      refine ⟨hy, fun c hc => ⟨hbg.trans hg, ?_⟩⟩
      obtain ⟨hbound, rfl⟩ := hall c hc
      rw [hconn]
      exact hsame hbound
    · have hp : Presents level x := by simp [Presents, hx, hbefore, hj, hu, h.guard]
      exact ⟨h.guard ▸ hl, .now hist hp hquiet⟩

end Grant

/-- A tester between whose steps no connection ended is one tester. -/
theorem own_of_since {hist : List Step} {x : Step} {Q P : Step → Prop}
    (h : Trace.Since Q P (hist ++ [x])) (hQ : ∀ y, Q y → y.event.2 ≠ .cancel)
    (hsep : Separated (hist ++ [x])) :
    Trace.Since (fun y => Q y ∧ y.event.1 = x.event.1) P (hist ++ [x]) := by
  obtain ⟨h₁, y, h₂, heq, hy, hall⟩ := h
  refine ⟨h₁, y, h₂, heq, hy, fun z hz => ⟨hall z hz, ?_⟩⟩
  obtain ⟨a, b, hab⟩ := List.append_of_mem hz
  by_contra hne
  rcases List.eq_nil_or_concat b with rfl | ⟨b', w, rfl⟩
  · rw [hab, ← List.append_assoc] at heq
    obtain ⟨-, hx⟩ := List.append_inj' heq rfl
    exact hne (by rw [(List.cons.inj hx).1])
  · rw [List.concat_eq_append] at hab
    have hsplit : hist ++ [x] = (h₁ ++ a ++ z :: b') ++ [w] := by simp [heq, hab]
    obtain ⟨-, hx⟩ := List.append_inj' hsplit rfl
    obtain rfl := (List.cons.inj hx).1
    obtain ⟨m, hm, hcancel⟩ := hsep (h₁ ++ a) z b' x [] (by simp [heq, hab]) hne
    exact hQ m (hall m (by rw [hab]; exact List.mem_append_right _ hm)) hcancel

theorem grant_apply {level : UInt8} {r : Router} {hist : List Step} (h : Grant level r hist)
    (e : Owned) : Grant level (applyFor r e).1 (hist ++ [Trace.entry applyFor r e]) ∧
      OnlyOwn level hist (Trace.entry applyFor r e) := by
  obtain ⟨who, e⟩ := e
  cases e with
  | hold unlocked => exact ⟨h.held rfl, nofun⟩
  | frame bus f now => exact ⟨h.keep (grant_onFrame ..) nofun rfl, nofun⟩
  | step now => exact ⟨h.keep (grant_step ..) nofun rfl, nofun⟩
  | produce now channel =>
    exact ⟨h.keep ((grant_step r now).trans (grant_pump ..)) nofun rfl, nofun⟩
  | room now => exact ⟨h.keep (grant_room ..) nofun rfl, nofun⟩
  | pop => exact ⟨h.keep (grant_pop r) nofun rfl, nofun⟩
  | cancel =>
    refine ⟨⟨h.guard, ?_, ?_⟩, nofun⟩ <;> simp [applyFor, apply, Router.cancel]
  | accept idx req conn ticket unlocked now =>
    have hspec := grant_accept r idx req conn ticket unlocked now
    by_cases hj : r.judges idx req
    · rw [if_pos hj] at hspec
      have hx : (Trace.entry applyFor r (who, .accept idx req conn ticket unlocked now)).event.2 =
        .accept idx req conn ticket unlocked now := rfl
      obtain ⟨hgrant, hconn⟩ := h.judged hx rfl hj hspec.1
      refine ⟨hgrant, ?_⟩
      rintro idx' req' conn' ticket' unlocked' now' heq hlabel
      obtain ⟨rfl, rfl, rfl, rfl, rfl, rfl⟩ := Event.accept.inj heq
      have hg : (r.accept idx req conn ticket unlocked now).2.granted = true := by
        rw [hspec.1.granted]
        exact hspec.2 (Option.some.inj hlabel)
      obtain ⟨hl, hsince⟩ := hgrant.source hg
      rw [hconn hg] at hsince
      have hund : Trace.Since (Undisturbed conn) _ _ :=
        hsince.imp fun y hy => ⟨hy.1, fun c hc => (hy.2 c hc).2⟩
      exact ⟨hl, hund, own_of_since hund fun y hy => hy.1⟩
    · rw [if_neg hj] at hspec
      refine ⟨h.keep hspec.1 nofun ?_, ?_⟩
      · simp [named, hj]
      · rintro idx' req' conn' ticket' unlocked' now' heq hlabel
        exact absurd (Option.some.inj hlabel) hspec.2

/-- In every run, whatever the order of requests, unlocks and ends of connections. -/
theorem routes_on_own_grant (level bs : UInt8) (routes : List Route) (es : List Owned) :
    Trace.Along (OnlyOwn level) (Trace.history applyFor (init level bs routes) es) := by
  have h0 : Grant level (init level bs routes) [] := ⟨rfl, nofun, nofun⟩
  exact (Trace.run_along (I := Grant level) (C := fun _ _ => True) h0
    (fun es e h _ => grant_apply h e) es (fun _ _ _ _ => trivial)).2

end BloblyEmb.Diagroute
