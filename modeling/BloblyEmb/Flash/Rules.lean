import BloblyEmb.Flash.Driver

/-!
# Rules for programs over a fallible flash

`Sat T A G m w Q C` says what running `m` from the world `w` establishes, given that every
call it makes satisfies the assumption `A`: each call satisfies the guarantee `G`, a result
satisfies `Q`, a run that is cut off leaves a world satisfying `C`, and a run-time error occurs
only where `T` allows it. The predicate is closed under sequencing, so a program is walked one
driver call at a time.

The assumption is about the calls of the run and not about the script, because what a torn
word looks like depends on what was being programmed.
-/
namespace BloblyEmb.Flash

universe u
variable {α β : Type u} {T : Prop} {A G : Call → Prop} {w : World}

/-- Correctness of one run, under an assumption on its calls. -/
def Sat (T : Prop) (A G : Call → Prop) (m : FlashM α) (w : World) (Q : α → World → Prop)
    (C : World → Prop) : Prop :=
  (∀ c ∈ (m w).calls, A c) → (∀ c ∈ (m w).calls, G c) ∧
    match (m w).out with
    | .done a => Q a (m w).world
    | .cut => C (m w).world
    | .trap => T ∧ C (m w).world

namespace Sat
variable {m : FlashM α} {Q Q' : α → World → Prop} {C C' : World → Prop}

theorem pure {a : α} (h : Q a w) : Sat T A G (Pure.pure a) w Q C := by
  intro _
  simpa using h

/-- Sequencing: the continuation runs in the world the first part leaves. -/
theorem bind {f : α → FlashM β} {Q : β → World → Prop}
    (h : Sat T A G m w (fun a w' => Sat T A G (f a) w' Q C) C) : Sat T A G (m >>= f) w Q C := by
  intro hA
  rw [FlashM.bind_apply] at hA ⊢
  unfold Sat at h
  revert h hA
  rcases m w with ⟨out, w', cs⟩
  cases out with
  | done a =>
    intro h hA
    obtain ⟨hG, hrest⟩ := h fun c hc => hA c (List.mem_append_left _ hc)
    obtain ⟨hG', hQ⟩ := hrest fun c hc => hA c (List.mem_append_right _ hc)
    refine ⟨fun c hc => ?_, hQ⟩
    rcases List.mem_append.mp hc with hc | hc
    · exact hG c hc
    · exact hG' c hc
  | cut => exact fun h hA => h hA
  | trap => exact fun h hA => h hA

/-- Consequence. -/
theorem imp (h : Sat T A G m w Q C) (hQ : ∀ a w', Q a w' → Q' a w')
    (hC : ∀ w', C w' → C' w') : Sat T A G m w Q' C' := by
  intro hA
  obtain ⟨hG, hout⟩ := h hA
  refine ⟨hG, ?_⟩
  revert hout
  cases (m w).out with
  | done a => exact hQ a _
  | cut => exact hC _
  | trap => exact fun h => ⟨h.1, hC _ h.2⟩

theorem imp_post (h : Sat T A G m w Q C) (hQ : ∀ a w', Q a w' → Q' a w') : Sat T A G m w Q' C :=
  h.imp hQ fun _ => id

/-- Every run satisfies what asks for nothing. -/
theorem any : Sat True A (fun _ => True) m w (fun _ _ => True) (fun _ => True) := by
  intro _
  refine ⟨fun _ _ => trivial, ?_⟩
  cases (m w).out with
  | done a => trivial
  | cut => trivial
  | trap => exact ⟨trivial, trivial⟩

/-- Two results of one run. -/
theorem and {T' : Prop} {G' : Call → Prop} (h : Sat T A G m w Q C)
    (h' : Sat T' (fun _ => True) G' m w Q' C') :
    Sat T A G m w (fun a w' => Q a w' ∧ Q' a w') C := by
  intro hA
  obtain ⟨hG, hout⟩ := h hA
  obtain ⟨-, hout'⟩ := h' fun _ _ => trivial
  refine ⟨hG, ?_⟩
  revert hout hout'
  cases (m w).out with
  | done a => exact And.intro
  | cut => exact fun h _ => h
  | trap => exact fun h _ => h

/-- The continuation after a call whose rule is known. -/
theorem andThen {f : α → FlashM β} {R : β → World → Prop} (h : Sat T A G m w Q C)
    (hf : ∀ a w', Q a w' → Sat T A G (f a) w' R C) : Sat T A G (m >>= f) w R C :=
  bind (h.imp_post hf)

theorem ite {p : Prop} [Decidable p] {m₁ m₂ : FlashM α} (h₁ : p → Sat T A G m₁ w Q C)
    (h₂ : ¬p → Sat T A G m₂ w Q C) : Sat T A G (if p then m₁ else m₂) w Q C := by
  split
  · exact h₁ ‹_›
  · exact h₂ ‹_›

/-- A run-time error, where it is allowed. -/
theorem trap (hT : T) (hC : C w) : Sat T A G FlashM.trap w Q C := by
  intro _
  simpa [FlashM.trap] using And.intro hT hC

/-! ## The driver's calls -/

/-- A program call succeeds, fails or is cut, by what the script says. -/
theorem program {addr : ℕ} {data : List UInt8} {Q : Bool → World → Prop}
    (hok : w.fault = none →
      A (.program addr data true w.mem (w.mem.write addr data)) →
      G (.program addr data true w.mem (w.mem.write addr data)) ∧
        Q true (w.wrote (w.mem.write addr data)))
    (hfail : ∀ f, w.fault = some f →
      A (.program addr data false w.mem (w.mem.write addr (data.take f.landed))) →
      G (.program addr data false w.mem (w.mem.write addr (data.take f.landed))) ∧
        (f.cut = false → Q false (w.wrote (w.mem.write addr (data.take f.landed)))) ∧
        (f.cut = true → C (w.wrote (w.mem.write addr (data.take f.landed))))) :
    Sat T A G (Flash.program addr data) w Q C := by
  intro hA
  unfold Flash.program at hA ⊢
  cases hf : w.fault with
  | none =>
    simp only [hf, List.mem_singleton, forall_eq] at hA ⊢
    exact hok hf hA
  | some f =>
    simp only [hf, List.mem_singleton, forall_eq] at hA ⊢
    obtain ⟨hG, hQ, hC⟩ := hfail f hf hA
    refine ⟨hG, ?_⟩
    unfold Fault.outcome
    cases hcut : f.cut with
    | false => exact hQ hcut
    | true => exact hC hcut

/-- An erase call wipes its whole range, or any part of it when it fails or is cut. -/
theorem erase {addr size : ℕ} {Q : Bool → World → Prop}
    (hok : w.fault = none →
      A (.erase addr size true w.mem (w.mem.wipe fun x => addr ≤ x && x < addr + size)) →
      G (.erase addr size true w.mem (w.mem.wipe fun x => addr ≤ x && x < addr + size)) ∧
        Q true (w.wrote (w.mem.wipe fun x => addr ≤ x && x < addr + size)))
    (hfail : ∀ p : ℕ → Bool, (∀ x, p x = true → addr ≤ x ∧ x < addr + size) →
      A (.erase addr size false w.mem (w.mem.wipe p)) →
      G (.erase addr size false w.mem (w.mem.wipe p)) ∧
        Q false (w.wrote (w.mem.wipe p)) ∧ C (w.wrote (w.mem.wipe p))) :
    Sat T A G (Flash.erase addr size) w Q C := by
  intro hA
  unfold Flash.erase at hA ⊢
  cases hf : w.fault with
  | none =>
    simp only [hf, List.mem_singleton, forall_eq] at hA ⊢
    exact hok hf hA
  | some f =>
    simp only [hf, List.mem_singleton, forall_eq] at hA ⊢
    have hp : ∀ x, (decide (addr ≤ x) && decide (x < addr + size) && f.wiped (x - addr)) = true →
        addr ≤ x ∧ x < addr + size := by
      intro x hx
      simp only [Bool.and_eq_true, decide_eq_true_eq] at hx
      exact hx.1
    obtain ⟨hG, hQ, hC⟩ := hfail _ hp hA
    refine ⟨hG, ?_⟩
    unfold Fault.outcome
    cases f.cut with
    | false => exact hQ
    | true => exact hC

end Sat

/-! ## Steady reads -/

/-- No read is going to be refused. -/
def World.Steady (w : World) : Prop := w.faults.reads = []

theorem World.Steady.wrote {m : Mem} (h : w.Steady) : (w.wrote m).Steady := h

@[simp] theorem World.wrote_mem (m : Mem) : (w.wrote m).mem = m := rfl

/-- A steady read returns what the flash holds and changes nothing. -/
theorem read_of_steady (h : w.Steady) (addr n : ℕ) :
    read addr n w = ⟨.done (some (w.mem.bytes addr n)), w, []⟩ := by
  rcases w with ⟨mem, ⟨ws, rs⟩⟩
  obtain rfl : rs = [] := h
  rfl

/-- `w'` is `w` after some reads. -/
structure World.Reads (w w' : World) : Prop where
  mem : w'.mem = w.mem
  writes : w'.faults.writes = w.faults.writes
  steady : w.Steady → w'.Steady

namespace World.Reads
variable {w' w'' : World}

theorem refl (w : World) : w.Reads w := ⟨rfl, rfl, id⟩

theorem trans (h : w.Reads w') (h' : w'.Reads w'') : w.Reads w'' :=
  ⟨h'.mem.trans h.mem, h'.writes.trans h.writes, fun hs => h'.steady (h.steady hs)⟩

theorem fault (h : w.Reads w') : w'.fault = w.fault := by
  unfold World.fault
  rw [h.writes]

end World.Reads

/-- A read is refused or returns what the flash holds; either way nothing else changes. -/
theorem read_spec (w : World) (addr n : ℕ) :
    ∃ w', w.Reads w' ∧
      (read addr n w = ⟨.done (some (w.mem.bytes addr n)), w', []⟩ ∨
        ¬ w.Steady ∧ read addr n w = ⟨.done none, w', []⟩) := by
  rcases w with ⟨mem, ws, rs⟩
  refine ⟨⟨mem, ws, rs.tail⟩, ⟨rfl, rfl, ?_⟩, ?_⟩
  · rintro (rfl : rs = [])
    rfl
  · cases rs with
    | nil => exact .inl rfl
    | cons r rs =>
      cases r with
      | false => exact .inl rfl
      | true => exact .inr ⟨by simp [World.Steady], rfl⟩

theorem Sat.read {addr n : ℕ} {Q : Option (List UInt8) → World → Prop} {C : World → Prop}
    (h : w.Steady) (hQ : Q (some (w.mem.bytes addr n)) w) :
    Sat T A G (Flash.read addr n) w Q C := by
  unfold Sat
  rw [read_of_steady h]
  intro _
  simpa using hQ

theorem Sat.blank {addr n : ℕ} {Q : Bool → World → Prop} {C : World → Prop}
    (hQ : Q (w.mem.erased addr n) w) : Sat T A G (Flash.blank addr n) w Q C := by
  intro _
  simpa [Flash.blank] using hQ

end BloblyEmb.Flash
