import Mathlib.Algebra.Order.Ring.Nat
import Mathlib.Data.Nat.Bitwise

/-!
# Bring-up

The init sequencer (`ecu`) runs the phases of its table in order, each after the phases it depends
on, and stops at the first that fails; a stop takes down the ones that came up, the last one first.
What a phase does is any function of the world.
-/
namespace BloblyEmb.Ecu

variable {σ : Type}

def maxPhases : ℕ := 32

structure Phase (σ : Type) where
  /-- The phases that must be up first, a bit for each. -/
  deps : UInt32
  run : σ → Bool × σ
  stop : σ → σ

structure InitSeq where
  /-- The phases that are up, a bit for each. -/
  done : UInt32 := 0
  failed : ℤ := -1

/-- The phases of the table that count. -/
def count (n : ℤ) : ℕ := (if n > maxPhases then (maxPhases : ℤ) else n).toNat

def bit (i : ℕ) : UInt32 := 1 <<< UInt32.ofNat i

/-- The loop of `run` over the phases that are left. -/
def runPhases (phases : ℕ → Phase σ) : List ℕ → InitSeq → σ → Bool × InitSeq × σ
  | [], s, w => (true, s, w)
  | i :: is, s, w =>
    let p := phases i
    if p.deps &&& s.done ≠ p.deps then (false, { s with failed := i }, w)
    else
      let r := p.run w
      if ¬r.1 then (false, { s with failed := i }, r.2)
      else runPhases phases is { s with done := s.done ||| bit i } r.2

def InitSeq.run (s : InitSeq) (phases : ℕ → Phase σ) (n : ℤ) (w : σ) : Bool × InitSeq × σ :=
  runPhases phases (List.range (count n)) s w

/-- The pass of `stop` at a phase. -/
def stopPhase (phases : ℕ → Phase σ) (r : InitSeq × σ) (i : ℕ) : InitSeq × σ :=
  if r.1.done &&& bit i ≠ 0 then
    ({ r.1 with done := r.1.done &&& ~~~bit i }, (phases i).stop r.2)
  else r

def InitSeq.stop (s : InitSeq) (phases : ℕ → Phase σ) (n : ℤ) (w : σ) : InitSeq × σ :=
  (List.range (count n)).reverse.foldl (stopPhase phases) (s, w)

/-! ## What the phases do to the world -/

/-- A phase names another as one that it depends on. -/
def Phase.needs (p : Phase σ) (d : ℕ) : Prop := p.deps.toNat.testBit d = true

/-- The world after the first phases came up. -/
def up (phases : ℕ → Phase σ) (w : σ) : ℕ → σ
  | 0 => w
  | k + 1 => ((phases k).run (up phases w k)).2

/-- The world after the first phases are taken down, the last one first. -/
def down (phases : ℕ → Phase σ) : ℕ → σ → σ
  | 0, w => w
  | k + 1, w => down phases k ((phases k).stop w)

/-- The first `k` phases come up: each succeeds after the ones before it, and depends on some of
those. -/
def ComesUp (phases : ℕ → Phase σ) (w : σ) (k : ℕ) : Prop :=
  ∀ i < k, ((phases i).run (up phases w i)).1 = true ∧ ∀ d, (phases i).needs d → d < i

/-- Phase `k` does not: it depends on one that is not up, and is not started, or it fails. -/
def Fails (phases : ℕ → Phase σ) (w : σ) (k : ℕ) (w' : σ) : Prop :=
  ((∃ d, k ≤ d ∧ (phases k).needs d) ∧ w' = up phases w k) ∨
    ((∀ d, (phases k).needs d → d < k) ∧ (phases k).run (up phases w k) = (false, w'))

/-! ## Bits -/

/-- The bits of the first `k` phases. -/
def below (k : ℕ) : UInt32 := UInt32.ofNat (2 ^ k - 1)

theorem toNat_below {k : ℕ} (h : k ≤ maxPhases) : (below k).toNat = 2 ^ k - 1 := by
  have hpow : 2 ^ k ≤ 2 ^ 32 := Nat.pow_le_pow_right (by decide) h
  rw [below, UInt32.toNat_ofNat']
  exact Nat.mod_eq_of_lt (by omega)

theorem below_succ : ∀ k < maxPhases, below k ||| bit k = below (k + 1) ∧
    below (k + 1) &&& bit k ≠ 0 ∧ below (k + 1) &&& ~~~bit k = below k := by
  decide +kernel

theorem below_clear : ∀ i < maxPhases, ∀ k ≤ i, below k &&& bit i = 0 := by
  decide +kernel

/-- The dependencies are up when they are among the first phases. -/
theorem deps_below {p : Phase σ} {k : ℕ} (h : k ≤ maxPhases) :
    p.deps &&& below k = p.deps ↔ ∀ d, p.needs d → d < k := by
  have hand : (p.deps &&& below k).toNat = p.deps.toNat % 2 ^ k := by
    rw [UInt32.toNat_and, toNat_below h, Nat.and_two_pow_sub_one_eq_mod]
  constructor
  · intro heq d hd
    by_contra hle
    have hlt : p.deps.toNat < 2 ^ k := by
      rw [← heq, hand]
      exact Nat.mod_lt _ (Nat.two_pow_pos k)
    have hpow : p.deps.toNat < 2 ^ d :=
      Nat.lt_of_lt_of_le hlt (Nat.pow_le_pow_right (by decide) (Nat.le_of_not_lt hle))
    unfold Phase.needs at hd
    rw [Nat.testBit_lt_two_pow hpow] at hd
    cases hd
  · intro hall
    refine UInt32.toNat_inj.mp (hand.trans (Nat.mod_eq_of_lt ?_))
    refine Nat.lt_pow_two_of_testBit _ fun d hd => ?_
    by_contra hbit
    have hlt := hall d (by simpa [Phase.needs] using hbit)
    omega

/-! ## Runs -/

theorem count_le (n : ℤ) : count n ≤ maxPhases := by
  unfold count
  split
  · exact Nat.le_refl _
  · omega

/-- By induction on the phases that are left: the run ends after the table or at the first phase that
does not come up. -/
theorem runPhases_spec (phases : ℕ → Phase σ) (w : σ) (failed : ℤ) (m : ℕ) {k : ℕ}
    (hlen : k + m ≤ maxPhases) (hup : ComesUp phases w k) :
    ∃ k' ≤ k + m, ComesUp phases w k' ∧
      ((k' = k + m ∧ runPhases phases (List.range' k m) ⟨below k, failed⟩ (up phases w k) =
          (true, ⟨below k', failed⟩, up phases w k')) ∨
        (k' < k + m ∧ ∃ w', Fails phases w k' w' ∧
          runPhases phases (List.range' k m) ⟨below k, failed⟩ (up phases w k) =
            (false, ⟨below k', k'⟩, w'))) := by
  induction m generalizing k with
  | zero => exact ⟨k, Nat.le_refl _, hup, .inl ⟨rfl, rfl⟩⟩
  | succ m ih =>
    rw [List.range'_succ, runPhases]
    dsimp only
    by_cases hdeps : (phases k).deps &&& below k = (phases k).deps
    · rw [if_neg (not_not.mpr hdeps)]
      have hmet := (deps_below (by omega)).mp hdeps
      cases hrun : ((phases k).run (up phases w k)).1 with
      | false =>
        rw [if_pos (by decide)]
        refine ⟨k, by omega, hup, .inr ⟨by omega, _, .inr ⟨hmet, ?_⟩, rfl⟩⟩
        rw [← hrun]
      | true =>
        rw [if_neg (by decide), (below_succ k (by omega)).1]
        have hup' : ComesUp phases w (k + 1) := by
          intro i hi
          rcases Nat.lt_succ_iff_lt_or_eq.mp hi with hlt | rfl
          · exact hup i hlt
          · exact ⟨hrun, hmet⟩
        obtain ⟨k', hk', h1, h2⟩ := ih (by omega) hup'
        rw [show k + 1 + m = k + (m + 1) by omega] at hk' h2
        exact ⟨k', hk', h1, h2⟩
    · rw [if_pos hdeps]
      have hunmet : ∃ d, k ≤ d ∧ (phases k).needs d := by
        by_contra hcon
        push Not at hcon
        refine hdeps ((deps_below (by omega)).mpr fun d hd => ?_)
        by_contra hle
        exact hcon d (Nat.le_of_not_lt hle) hd
      exact ⟨k, by omega, hup, .inr ⟨by omega, _, .inl ⟨hunmet, rfl⟩, rfl⟩⟩

/-- By induction on the table from its end: what is up is taken down, and nothing else. -/
theorem stop_spec (phases : ℕ → Phase σ) (failed : ℤ) (m : ℕ) (hm : m ≤ maxPhases) {k : ℕ}
    (hk : k ≤ m) (w : σ) :
    (List.range m).reverse.foldl (stopPhase phases) (⟨below k, failed⟩, w) =
      (⟨0, failed⟩, down phases k w) := by
  induction m generalizing k w with
  | zero =>
    obtain rfl := Nat.le_zero.mp hk
    rfl
  | succ m ih =>
    rw [List.range_succ, List.reverse_append, List.reverse_singleton, List.singleton_append,
      List.foldl_cons]
    rcases Nat.lt_or_eq_of_le hk with hlt | rfl
    · have hskip : stopPhase phases (⟨below k, failed⟩, w) m = (⟨below k, failed⟩, w) := by
        unfold stopPhase
        rw [if_neg (not_not.mpr (below_clear m (by omega) k (by omega)))]
      rw [hskip]
      exact ih (by omega) (by omega) w
    · obtain ⟨-, hset, hclear⟩ := below_succ m (by omega)
      have hstop : stopPhase phases (⟨below (m + 1), failed⟩, w) m =
          (⟨below m, failed⟩, (phases m).stop w) := by
        unfold stopPhase
        rw [if_pos hset]
        dsimp only
        rw [hclear]
      rw [hstop]
      exact ih (by omega) (Nat.le_refl m) _

/-- Phases whose stop undoes their init leave the world as it was. -/
theorem down_up {phases : ℕ → Phase σ} {w : σ} {k : ℕ}
    (hundo : ∀ i < k, (phases i).stop ((phases i).run (up phases w i)).2 = up phases w i) :
    down phases k (up phases w k) = w := by
  induction k with
  | zero => rfl
  | succ k ih =>
    rw [down, up, hundo k (Nat.lt_succ_self k)]
    exact ih fun i hi => hundo i (Nat.lt_succ_of_lt hi)

/-- **Bring-up and shutdown.** With nothing up, a run starts the phases in order, each only when those
before it succeeded and the ones it depends on are among them; it succeeds when the table ends, else it
names the first phase that is not to be started or fails, and no later one is touched. A stop then takes
down exactly the phases that came up, in the reverse order, and if stops undo inits and a phase that
fails leaves nothing behind, the world is as before. The index that a failure leaves stays until
another. -/
theorem bring_up (phases : ℕ → Phase σ) (n : ℤ) (failed : ℤ) (w : σ) :
    ∃ k ≤ count n, ComesUp phases w k ∧ ∃ w' s,
      (InitSeq.run ⟨0, failed⟩ phases n w = (decide (k = count n), s, w') ∧
        (k = count n → w' = up phases w k ∧ s.failed = failed) ∧
        (k < count n → Fails phases w k w' ∧ s.failed = k)) ∧
      s.stop phases n w' = (⟨0, s.failed⟩, down phases k w') ∧
      ((∀ i v, ((phases i).run v).1 = true → (phases i).stop ((phases i).run v).2 = v) →
        (∀ i v, ((phases i).run v).1 = false → ((phases i).run v).2 = v) →
        (s.stop phases n w').2 = w) := by
  have hle := count_le n
  obtain ⟨k, hk, hup, hcases⟩ := runPhases_spec phases w failed (count n) (k := 0) (by omega)
    fun i hi => absurd hi (Nat.not_lt_zero i)
  rw [Nat.zero_add, ← List.range_eq_range'] at hcases
  rw [Nat.zero_add] at hk
  have hrun : InitSeq.run ⟨0, failed⟩ phases n w =
      runPhases phases (List.range (count n)) ⟨below 0, failed⟩ (up phases w 0) := rfl
  have hstop : ∀ f v, InitSeq.stop ⟨below k, f⟩ phases n v = (⟨0, f⟩, down phases k v) :=
    fun f v => stop_spec phases f (count n) hle hk v
  have hundo : (∀ i v, ((phases i).run v).1 = true → (phases i).stop ((phases i).run v).2 = v) →
      down phases k (up phases w k) = w := fun h => down_up fun i hi => h i _ (hup i hi).1
  refine ⟨k, hk, hup, ?_⟩
  rcases hcases with ⟨heq, hres⟩ | ⟨hlt, w', hfails, hres⟩
  · refine ⟨up phases w k, ⟨below k, failed⟩, ⟨?_, fun _ => ⟨rfl, rfl⟩, fun h => ?_⟩, hstop _ _,
      fun h _ => ?_⟩
    · rw [hrun, hres, decide_eq_true heq]
    · omega
    · rw [hstop]
      exact hundo h
  · refine ⟨w', ⟨below k, k⟩, ⟨?_, fun h => ?_, fun _ => ⟨hfails, rfl⟩⟩, hstop _ _, fun h h' => ?_⟩
    · rw [hrun, hres, decide_eq_false (Nat.ne_of_lt hlt)]
    · omega
    · rw [hstop]
      rcases hfails with ⟨-, rfl⟩ | ⟨-, hfail⟩
      · exact hundo h
      · have hkept := h' k (up phases w k) (by rw [hfail])
        rw [hfail] at hkept
        rw [show w' = up phases w k from hkept]
        exact hundo h

end BloblyEmb.Ecu
