import BloblyEmb.Flash.Rules

/-!
# Monitors

A monitor watches the calls of a program one by one: it says which call is allowed next, and
keeps a state of its own that each call moves on. `Watches` is the counterpart of `Sat` for
properties that depend on the order of the calls, where the flash content before a call does not
carry enough of the past: a failed program may leave a word as it found it, and yet use it up.
-/
namespace BloblyEmb.Flash

universe u v
variable {μ : Type v} {α β : Type u}

structure Monitor (μ : Type v) where
  /-- The call is allowed in this state. -/
  ok : μ → Call → Prop
  next : μ → Call → μ

namespace Monitor

/-- The state behind some calls. -/
def after (M : Monitor μ) (s : μ) (cs : List Call) : μ := cs.foldl M.next s

/-- Every call is allowed in the state that the calls before it lead to. -/
def Allows (M : Monitor μ) : μ → List Call → Prop
  | _, [] => True
  | s, c :: cs => M.ok s c ∧ M.Allows (M.next s c) cs

variable {M : Monitor μ} {s : μ}

@[simp] theorem after_nil : M.after s [] = s := rfl
@[simp] theorem after_append (cs cs' : List Call) :
    M.after s (cs ++ cs') = M.after (M.after s cs) cs' := List.foldl_append

@[simp] theorem allows_nil : M.Allows s [] := trivial

theorem allows_append {cs cs' : List Call} :
    M.Allows s (cs ++ cs') ↔ M.Allows s cs ∧ M.Allows (M.after s cs) cs' := by
  induction cs generalizing s with
  | nil => simp
  | cons c cs ih =>
    simp only [List.cons_append, Allows, ih, and_assoc]
    rfl

/-- What being allowed says of one call. -/
theorem Allows.ok {cs cs' : List Call} {c : Call} (h : M.Allows s (cs ++ c :: cs')) :
    M.ok (M.after s cs) c := (allows_append.mp h).2.1

/-- The calls of the run are allowed, and a result satisfies `Q` together with the state of the
monitor. -/
def Watches (M : Monitor μ) (s : μ) (m : FlashM α) (w : World) (Q : α → World → μ → Prop) : Prop :=
  M.Allows s (m w).calls ∧
    ∀ a, (m w).out = .done a → Q a (m w).world (M.after s (m w).calls)

namespace Watches
variable {w : World} {m : FlashM α} {Q Q' : α → World → μ → Prop}

theorem pure {a : α} (h : Q a w s) : M.Watches s (Pure.pure a) w Q := by
  refine ⟨trivial, fun b hb => ?_⟩
  obtain rfl := Outcome.done.inj hb
  exact h

theorem trap : M.Watches s (FlashM.trap : FlashM α) w Q := ⟨trivial, fun _ h => nomatch h⟩

theorem bind {f : α → FlashM β} {Q : β → World → μ → Prop}
    (h : M.Watches s m w fun a w' s' => M.Watches s' (f a) w' Q) : M.Watches s (m >>= f) w Q := by
  unfold Watches at h ⊢
  rw [FlashM.bind_apply]
  revert h
  rcases m w with ⟨out, w', cs⟩
  cases out with
  | done a =>
    rintro ⟨hcs, hrest⟩
    obtain ⟨hcs', hQ⟩ := hrest a rfl
    exact ⟨allows_append.mpr ⟨hcs, hcs'⟩, fun b hb => after_append cs _ ▸ hQ b hb⟩
  | cut => exact fun h => ⟨h.1, fun _ hb => nomatch hb⟩
  | trap => exact fun h => ⟨h.1, fun _ hb => nomatch hb⟩

theorem imp (h : M.Watches s m w Q) (hQ : ∀ a w' s', Q a w' s' → Q' a w' s') :
    M.Watches s m w Q' := ⟨h.1, fun a ha => hQ _ _ _ (h.2 a ha)⟩

theorem andThen {f : α → FlashM β} {R : β → World → μ → Prop} (h : M.Watches s m w Q)
    (hf : ∀ a w' s', Q a w' s' → M.Watches s' (f a) w' R) : M.Watches s (m >>= f) w R :=
  bind (h.imp hf)

theorem ite {p : Prop} [Decidable p] {m₁ m₂ : FlashM α} (h₁ : p → M.Watches s m₁ w Q)
    (h₂ : ¬p → M.Watches s m₂ w Q) : M.Watches s (if p then m₁ else m₂) w Q := by
  split
  · exact h₁ ‹_›
  · exact h₂ ‹_›

/-- A part that makes no call leaves the monitor alone. -/
theorem quiet (hcalls : (m w).calls = []) (hQ : ∀ a, (m w).out = .done a → Q a (m w).world s) :
    M.Watches s m w Q := by
  unfold Watches
  rw [hcalls]
  exact ⟨trivial, hQ⟩

/-- What `Sat` says of a part that makes no call. -/
theorem of_sat {T : Prop} {C : World → Prop} {R : α → World → Prop}
    (h : Sat T (fun _ => True) (fun _ => False) m w R C) :
    M.Watches s m w fun a w' s' => R a w' ∧ s' = s := by
  obtain ⟨hnone, hout⟩ := h fun _ _ => trivial
  refine quiet (List.eq_nil_iff_forall_not_mem.mpr hnone) fun a ha => ⟨?_, rfl⟩
  rw [ha] at hout
  exact hout

/-- A program call that may fail in any way the driver can. -/
theorem program {addr : ℕ} {data : List UInt8} {Q : Bool → World → μ → Prop}
    (h : ∀ ok m', M.ok s (.program addr data ok w.mem m') ∧
      ∀ w', w'.mem = m' → Q ok w' (M.next s (.program addr data ok w.mem m'))) :
    M.Watches s (Flash.program addr data) w Q := by
  unfold Watches Flash.program
  cases w.fault with
  | none =>
    obtain ⟨hok, hQ⟩ := h true (w.mem.write addr data)
    exact ⟨⟨hok, trivial⟩, fun a ha => Outcome.done.inj ha ▸ hQ _ rfl⟩
  | some f =>
    obtain ⟨hok, hQ⟩ := h false (w.mem.write addr (data.take f.landed))
    refine ⟨⟨hok, trivial⟩, fun a ha => ?_⟩
    rw [f.outcome_done ha]
    exact hQ _ rfl

theorem erase {addr size : ℕ} {Q : Bool → World → μ → Prop}
    (h : ∀ ok m', M.ok s (.erase addr size ok w.mem m') ∧
      ∀ w', w'.mem = m' → Q ok w' (M.next s (.erase addr size ok w.mem m'))) :
    M.Watches s (Flash.erase addr size) w Q := by
  unfold Watches Flash.erase
  cases w.fault with
  | none =>
    obtain ⟨hok, hQ⟩ := h true (w.mem.wipe fun x => addr ≤ x && x < addr + size)
    exact ⟨⟨hok, trivial⟩, fun a ha => Outcome.done.inj ha ▸ hQ _ rfl⟩
  | some f =>
    obtain ⟨hok, hQ⟩ := h false
      (w.mem.wipe fun x => addr ≤ x && x < addr + size && f.wiped (x - addr))
    refine ⟨⟨hok, trivial⟩, fun a ha => ?_⟩
    rw [f.outcome_done ha]
    exact hQ _ rfl

end Watches
end Monitor
end BloblyEmb.Flash
