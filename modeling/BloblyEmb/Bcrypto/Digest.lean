import BloblyEmb.Bcrypto.Sha512
import Mathlib.Algebra.Order.Ring.Nat
import Mathlib.Data.List.GetD

/-!
# The digest of the chunks is that of the message

Between calls a context stands for the bytes so far: the state for the blocks that are full, the
buffer for the rest. The padding is bytes like any other, so the last block is reached the same way.
-/
namespace BloblyEmb.Bcrypto

open Sha2 (Regs)

/-! ## Words -/

theorem toBitVec_ror64 (x : UInt64) {n : ℕ} (hpos : 0 < n) (hn : n < 64) :
    (ror64 x n).toBitVec = x.toBitVec.rotateRight n := by
  apply BitVec.eq_of_getLsbD_eq
  intro i hi
  have hright : n % 18446744073709551616 = n := by omega
  have hleft : (64 - n) % 18446744073709551616 = 64 - n := by omega
  have hrightMod : n % 64 = n := Nat.mod_eq_of_lt hn
  have hleftMod : (64 - n) % 64 = 64 - n := by omega
  rw [BitVec.getLsbD_rotateRight]
  simp only [ror64, UInt64.toBitVec_or, UInt64.toBitVec_shiftRight, UInt64.toBitVec_shiftLeft,
    BitVec.getLsbD_or]
  simp [hright, hleft, hrightMod, hleftMod]
  rcases Nat.lt_or_ge i (64 - n) with h | h
  · simp [h]
  · have hhigh : x.toBitVec.getLsbD (n + i) = false := BitVec.getLsbD_of_ge _ _ (by omega)
    simp [Nat.not_lt_of_le h, hi, hhigh]

namespace Sha512

theorem toBitVec_load (p : ℕ → UInt8) (b : ℕ) :
    (load p b).toBitVec = Sha2.word ((List.range 8).map fun i => p (b + i)) := by
  simp only [load, Sha2.word, List.range_succ, List.range_zero, List.nil_append, List.map_append,
    List.map_cons, List.map_nil, List.foldl_append, List.foldl_cons, List.foldl_nil,
    BitVec.shiftLeft_or_distrib, UInt64.toBitVec_or, UInt64.toBitVec_shiftLeft,
    UInt8.toBitVec_toUInt64, Nat.add_zero]
  simp [← BitVec.shiftLeft_add]

theorem toBitVec_round (k w : UInt64) (r : Regs UInt64) :
    (round k w r).map UInt64.toBitVec =
      Sha2.round k.toBitVec w.toBitVec (r.map UInt64.toBitVec) := by
  simp only [round, Sha2.round, Regs.map, Sha2.bigSigma0, Sha2.bigSigma1, Sha2.ch, Sha2.maj,
    UInt64.toBitVec_add, UInt64.toBitVec_xor, UInt64.toBitVec_and, UInt64.toBitVec_not,
    toBitVec_ror64 _ (show 0 < 14 by decide) (by decide),
    toBitVec_ror64 _ (show 0 < 18 by decide) (by decide),
    toBitVec_ror64 _ (show 0 < 41 by decide) (by decide),
    toBitVec_ror64 _ (show 0 < 28 by decide) (by decide),
    toBitVec_ror64 _ (show 0 < 34 by decide) (by decide),
    toBitVec_ror64 _ (show 0 < 39 by decide) (by decide)]

theorem toBitVec_next (w : List UInt64) (t : ℕ) :
    (next w t).toBitVec = Sha2.sigma1 (w.getD (t - 2) 0).toBitVec + (w.getD (t - 7) 0).toBitVec +
      Sha2.sigma0 (w.getD (t - 15) 0).toBitVec + (w.getD (t - 16) 0).toBitVec := by
  simp only [next, Sha2.sigma0, Sha2.sigma1, UInt64.toBitVec_add, UInt64.toBitVec_xor,
    toBitVec_ror64 _ (show 0 < 1 by decide) (by decide),
    toBitVec_ror64 _ (show 0 < 8 by decide) (by decide),
    toBitVec_ror64 _ (show 0 < 19 by decide) (by decide),
    toBitVec_ror64 _ (show 0 < 61 by decide) (by decide)]
  rw [show ∀ x : UInt64, (x >>> 7).toBitVec = x.toBitVec >>> 7 from fun _ => rfl,
    show ∀ x : UInt64, (x >>> 6).toBitVec = x.toBitVec >>> 6 from fun _ => rfl]
  ac_rfl

/-- The constants are those of the standard. -/
theorem toBitVec_sha512K : sha512K.map UInt64.toBitVec = Sha2.constants := by decide +kernel

theorem toBitVec_sha512H0 : sha512H0.map UInt64.toBitVec = Sha2.initial := by decide +kernel

theorem getD_set (w : List UInt64) (i j : ℕ) (x : UInt64) :
    (w.set i x).getD j 0 = if i = j ∧ i < w.length then x else w.getD j 0 := by
  simp only [List.getD_eq_getElem?_getD, List.getElem?_set]
  split <;> split <;> grind

/-- The words of a block, as the loops leave them. -/
structure Scheduled (p : ℕ → UInt8) (n : ℕ) (w : List UInt64) : Prop where
  length : w.length = 80
  words : ∀ t < n, (w.getD t 0).toBitVec =
    Sha2.schedule (fun i => (load p (i * 8)).toBitVec) t

theorem Scheduled.set {p : ℕ → UInt8} {n : ℕ} {w : List UInt64} (h : Scheduled p n w) (hn : n < 80)
    {x : UInt64}
    (hx : x.toBitVec = Sha2.schedule (fun i => (load p (i * 8)).toBitVec) n) :
    Scheduled p (n + 1) (w.set n x) where
  length := by rw [List.length_set, h.length]
  words := by
    intro t ht
    rw [getD_set]
    by_cases hlast : n = t
    · rw [if_pos ⟨hlast, h.length ▸ hn⟩, hx, hlast]
    · rw [if_neg fun hand => hlast hand.1]
      exact h.words t (by omega)

theorem scheduled_load (p : ℕ → UInt8) {n : ℕ} (hn : n ≤ 16) : Scheduled p n
    ((List.range n).foldl (fun w t => w.set t (load p (t * 8))) (List.replicate 80 0)) := by
  induction n with
  | zero => exact ⟨List.length_replicate, fun t ht => absurd ht (Nat.not_lt_zero t)⟩
  | succ n ih =>
    rw [List.range_succ, List.foldl_append]
    apply (ih (by omega)).set (by omega)
    rw [Sha2.schedule_of_lt _ (by omega)]

theorem scheduled_next {p : ℕ → UInt8} {w : List UInt64} (h : Scheduled p 16 w) {n : ℕ}
    (hn : n ≤ 64) : Scheduled p (16 + n)
      ((List.range n).foldl (fun w t => w.set (16 + t) (next w (16 + t))) w) := by
  induction n with
  | zero => simpa using h
  | succ n ih =>
    specialize ih (by omega)
    rw [List.range_succ, List.foldl_append]
    apply ih.set (by omega)
    rw [toBitVec_next, Sha2.schedule_of_le _ (by omega), ih.words _ (by omega),
      ih.words _ (by omega), ih.words _ (by omega), ih.words _ (by omega)]

theorem scheduled_words (p : ℕ → UInt8) : Scheduled p 80 (words p) := by
  have hload := scheduled_load p (Nat.le_refl 16)
  have hnext := scheduled_next hload (Nat.le_refl 64)
  rw [words]
  exact hnext

/-- A block goes in as the standard has it. -/
theorem state_block (c : Sha512) (p : ℕ → UInt8) :
    (c.block p).state.map UInt64.toBitVec =
      Sha2.compress (c.state.map UInt64.toBitVec) fun t => (load p (t * 8)).toBitVec := by
  have hrounds : ∀ n ≤ 80,
      ((List.range n).foldl (fun r t => round (sha512K.getD t 0) ((words p).getD t 0) r)
        c.state).map UInt64.toBitVec =
      (List.range n).foldl (fun r t => Sha2.round (Sha2.constants.getD t 0)
        (Sha2.schedule (fun i => (load p (i * 8)).toBitVec) t) r)
        (c.state.map UInt64.toBitVec) := by
    intro n hn
    induction n with
    | zero => rfl
    | succ n ih =>
      have hk : (sha512K.getD n 0).toBitVec = Sha2.constants.getD n 0 := by
        rw [← toBitVec_sha512K]
        simp only [List.getD_eq_getElem?_getD, List.getElem?_map]
        cases sha512K[n]? <;> rfl
      rw [List.range_succ, List.foldl_append, List.foldl_append, List.foldl_cons, List.foldl_cons,
        List.foldl_nil, List.foldl_nil, toBitVec_round, hk, (scheduled_words p).words n (by omega),
        ih (by omega)]
  rw [block, Regs.map_add (fun _ _ => UInt64.toBitVec_add), hrounds 80 (Nat.le_refl _), Sha2.compress]

/-! ## What a context stands for -/

/-- The bytes so far: `n` blocks of them are in the state, the rest is in the buffer. -/
structure Holds (c : Sha512) (m : List UInt8) (n : ℕ) : Prop where
  length : 128 * n + c.buflen = m.length
  room : c.buflen ≤ 128
  state : c.state.map UInt64.toBitVec = Sha2.absorb m n
  buf : ∀ k < c.buflen, c.buf k = m.getD (128 * n + k) 0

theorem holds_newSha512 : Holds newSha512 [] 0 where
  length := rfl
  room := by decide
  state := by rw [Sha2.absorb_zero, newSha512, toBitVec_sha512H0]
  buf := fun k hk => absurd hk (Nat.not_lt_zero k)

section Steps

variable {c : Sha512} {m : List UInt8} {n : ℕ}

theorem Holds.put (h : Holds c m n) (hroom : c.buflen < 128) (x : UInt8) :
    Holds (c.put x) (m ++ [x]) n where
  length := by
    have hlength := h.length
    simp only [Sha512.put, List.length_append, List.length_singleton]
    omega
  room := hroom
  state := by
    have hlength := h.length
    rw [Sha2.absorb_append m [x] (by omega)]
    exact h.state
  buf := by
    intro k hk
    have hlength := h.length
    simp only [Sha512.put] at hk ⊢
    by_cases hlast : k = c.buflen
    · rw [hlast, Function.update_self, h.length, List.getD_append_right _ _ _ _ (Nat.le_refl _),
        Nat.sub_self]
      rfl
    · rw [Function.update_of_ne hlast, h.buf k (by omega), List.getD_append _ _ _ _ (by omega)]

@[simp] theorem buflen_block (c : Sha512) (p : ℕ → UInt8) : (c.block p).buflen = c.buflen := by
  rw [block]

@[simp] theorem state_flush (c : Sha512) : c.flush.state = (c.block c.buf).state := by
  rw [flush]

@[simp] theorem buflen_flush (c : Sha512) : c.flush.buflen = 0 := by rw [flush]

/-- The next block, where its bytes are. -/
theorem state_block_of {p : ℕ → UInt8}
    (hstate : c.state.map UInt64.toBitVec = Sha2.absorb m n) (hm : 128 * (n + 1) ≤ m.length)
    (hp : ∀ k < 128, p k = m.getD (128 * n + k) 0) :
    (c.block p).state.map UInt64.toBitVec = Sha2.absorb m (n + 1) := by
  rw [state_block, hstate, Sha2.absorb_succ]
  apply Sha2.compress_congr
  intro t ht
  rw [toBitVec_load, Sha2.block]
  congr 1
  apply List.ext_getElem
  · simp only [List.length_map, List.length_range, List.length_take, List.length_drop]
    omega
  · intro i hi hi'
    simp only [List.length_map, List.length_range] at hi
    simp only [List.getElem_map, List.getElem_range, List.getElem_take, List.getElem_drop]
    rw [hp _ (by omega), List.getD_eq_getElem _ _ (by omega)]
    congr 1
    omega

theorem Holds.flush (h : Holds c m n) (hfull : c.buflen = 128) : Holds c.flush m (n + 1) where
  length := by
    have hlength := h.length
    rw [buflen_flush]
    omega
  room := by
    rw [buflen_flush]
    exact Nat.zero_le _
  state := by
    have hlength := h.length
    rw [state_flush]
    exact state_block_of h.state (by omega) fun k hk => h.buf k (by omega)
  buf := by
    intro k hk
    rw [buflen_flush] at hk
    exact absurd hk (Nat.not_lt_zero k)

/-- A block that goes in past the empty buffer. -/
theorem Holds.block (h : Holds c m n) (hempty : c.buflen = 0) {data : List UInt8}
    (hdata : 128 ≤ data.length) :
    Holds (c.block fun i => data.getD i 0) (m ++ data.take 128) (n + 1) where
  length := by
    have hlength := h.length
    rw [buflen_block, List.length_append, List.length_take]
    omega
  room := by
    rw [buflen_block]
    exact h.room
  state := by
    have hlength := h.length
    apply state_block_of
    · rw [Sha2.absorb_append _ _ (by omega)]
      exact h.state
    · rw [List.length_append, List.length_take]
      omega
    · intro k hk
      rw [List.getD_append_right _ _ _ _ (by omega), show 128 * n + k - m.length = k by omega,
        List.getD_eq_getElem _ _ (by omega), List.getD_eq_getElem _ _ (by rw [List.length_take]; omega),
        List.getElem_take]
  buf := by
    intro k hk
    rw [buflen_block, hempty] at hk
    exact absurd hk (Nat.not_lt_zero k)

@[simp] theorem buflen_put (c : Sha512) (x : UInt8) : (c.put x).buflen = c.buflen + 1 := rfl

@[simp] theorem total_block (c : Sha512) (p : ℕ → UInt8) : (c.block p).total = c.total := by
  rw [Sha512.block]

@[simp] theorem total_flush (c : Sha512) : c.flush.total = c.total := by
  rw [Sha512.flush, total_block]

end Steps

/-! ## Updates -/

section Updates

variable {c : Sha512} {m : List UInt8} {n : ℕ}

theorem Holds.puts (h : Holds c m n) (data : List UInt8) (hroom : c.buflen + data.length ≤ 128) :
    Holds (data.foldl Sha512.put c) (m ++ data) n ∧
      (data.foldl Sha512.put c).buflen = c.buflen + data.length ∧
      (data.foldl Sha512.put c).total = c.total := by
  induction data generalizing c m with
  | nil =>
    rw [List.append_nil]
    exact ⟨h, rfl, rfl⟩
  | cons x xs ih =>
    rw [List.length_cons] at hroom
    obtain ⟨hholds, hlen, htotal⟩ := ih (h.put (by omega) x) (by rw [buflen_put]; omega)
    rw [List.append_assoc, List.singleton_append] at hholds
    refine ⟨hholds, ?_, htotal⟩
    rw [List.foldl_cons, hlen, buflen_put, List.length_cons]
    omega

theorem Holds.fill (h : Holds c m n) (data : List UInt8) :
    ∃ taken, data = taken ++ (c.fill data).2 ∧ Holds (c.fill data).1 (m ++ taken) n ∧
      ((c.fill data).2 = [] ∨ (c.fill data).1.buflen = 128) ∧
      (c.fill data).1.total = c.total := by
  induction data generalizing c m with
  | nil => exact ⟨[], rfl, by rwa [List.append_nil], .inl rfl, rfl⟩
  | cons x xs ih =>
    by_cases hroom : c.buflen < 128
    · obtain ⟨taken, hdata, hholds, hend, htotal⟩ := ih (h.put hroom x)
      rw [Sha512.fill, if_pos hroom]
      refine ⟨x :: taken, ?_, ?_, hend, htotal⟩
      · rw [List.cons_append, ← hdata]
      · rwa [List.append_assoc, List.singleton_append] at hholds
    · rw [Sha512.fill, if_neg hroom]
      have hfull : c.buflen = 128 := Nat.le_antisymm h.room (Nat.le_of_not_lt hroom)
      exact ⟨[], rfl, by rwa [List.append_nil], .inr hfull, rfl⟩

theorem Holds.blocks (h : Holds c m n) (hempty : c.buflen = 0) {k : ℕ} {data : List UInt8}
    (hk : data.length ≤ k) :
    ∃ taken n', data = taken ++ (c.blocks k data).2 ∧ Holds (c.blocks k data).1 (m ++ taken) n' ∧
      (c.blocks k data).1.buflen = 0 ∧ (c.blocks k data).2.length < 128 ∧
      (c.blocks k data).1.total = c.total := by
  induction k generalizing c m n data with
  | zero =>
    refine ⟨[], n, rfl, by rwa [List.append_nil], hempty, ?_, rfl⟩
    rw [Sha512.blocks]
    exact Nat.lt_of_le_of_lt hk (by decide)
  | succ k ih =>
    by_cases hfull : 128 ≤ data.length
    · obtain ⟨taken, n', hdata, hholds, hbuflen, hrest, htotal⟩ :=
        ih (h.block hempty hfull) (by rw [buflen_block, hempty])
          (show (data.drop 128).length ≤ k by rw [List.length_drop]; omega)
      rw [Sha512.blocks, if_pos hfull]
      refine ⟨data.take 128 ++ taken, n', ?_, ?_, hbuflen, hrest, ?_⟩
      · rw [List.append_assoc, ← hdata, List.take_append_drop]
      · rwa [List.append_assoc] at hholds
      · rw [htotal, total_block]
    · rw [Sha512.blocks, if_neg hfull]
      exact ⟨[], n, rfl, by rwa [List.append_nil], hempty, Nat.lt_of_not_le hfull, rfl⟩

/-- A context between calls. -/
structure Represents (c : Sha512) (m : List UInt8) : Prop where
  holds : ∃ n, Holds c m n
  room : c.buflen < 128
  total : c.total = UInt64.ofNat m.length

theorem represents_newSha512 : Represents newSha512 [] :=
  ⟨⟨0, holds_newSha512⟩, by decide, rfl⟩

/-- Whole blocks and what is left behind them, from an empty buffer. -/
theorem Holds.absorb (h : Holds c m n) (hempty : c.buflen = 0) (rest : List UInt8)
    {c' : Sha512} (hc' : c' = (c.blocks rest.length rest).2.foldl Sha512.put
      (c.blocks rest.length rest).1) :
    (∃ n', Holds c' (m ++ rest) n') ∧ c'.buflen < 128 ∧ c'.total = c.total := by
  obtain ⟨taken, n', hdata, hholds, hbuflen, hlt, htotal⟩ := h.blocks hempty (Nat.le_refl rest.length)
  obtain ⟨hputs, hlen, hsame⟩ := hholds.puts
    (c.blocks rest.length rest).2 (by rw [hbuflen]; omega)
  rw [← hc'] at hputs hlen hsame
  rw [List.append_assoc, ← hdata] at hputs
  exact ⟨⟨n', hputs⟩, by omega, hsame.trans htotal⟩

theorem Represents.update (h : Represents c m) (data : List UInt8) :
    Represents (c.update data) (m ++ data) := by
  obtain ⟨⟨n, hholds⟩, hroom, htotal⟩ := h
  have hcount : c.total + UInt64.ofNat data.length = UInt64.ofNat (m ++ data).length := by
    rw [htotal, List.length_append, UInt64.ofNat_add]
  generalize hstart : ({ c with total := c.total + UInt64.ofNat data.length } : Sha512) = c₀
  have hholds₀ : Holds c₀ m n := by
    rw [← hstart]
    exact ⟨hholds.length, hholds.room, hholds.state, hholds.buf⟩
  have hbuflen₀ : c₀.buflen = c.buflen := by rw [← hstart]
  have htotal₀ : c₀.total = UInt64.ofNat (m ++ data).length := by rw [← hstart, ← hcount]
  rw [Sha512.update, hstart]
  by_cases hpart : 0 < c₀.buflen
  · simp only [if_pos hpart]
    obtain ⟨taken, hdata, hfill, hend, hsame⟩ := hholds₀.fill data
    by_cases hfull : (c₀.fill data).1.buflen = 128
    · rw [if_pos hfull]
      obtain ⟨⟨n', hrest⟩, hlt, hkept⟩ := (hfill.flush hfull).absorb (buflen_flush _) _ rfl
      rw [List.append_assoc, ← hdata] at hrest
      exact ⟨⟨n', hrest⟩, hlt, by rw [hkept, total_flush, hsame, htotal₀]⟩
    · rw [if_neg hfull]
      have hnone : (c₀.fill data).2 = [] := hend.resolve_right hfull
      rw [hnone, List.append_nil] at hdata
      rw [hnone]
      refine ⟨⟨n, hdata ▸ hfill⟩, ?_, ?_⟩
      · rw [List.length_nil, Sha512.blocks, List.foldl_nil]
        exact Nat.lt_of_le_of_ne hfill.room hfull
      · rw [List.length_nil, Sha512.blocks, List.foldl_nil, hsame, htotal₀]
  · simp only [if_neg hpart]
    obtain ⟨hrest, hlt, hkept⟩ := hholds₀.absorb (by omega) data rfl
    exact ⟨hrest, hlt, hkept.trans htotal₀⟩

theorem represents_updates (chunks : List (List UInt8)) {c : Sha512} {m : List UInt8}
    (h : Represents c m) : Represents (chunks.foldl Sha512.update c) (m ++ chunks.flatten) := by
  induction chunks generalizing c m with
  | nil => rwa [List.flatten_nil, List.append_nil]
  | cons x xs ih =>
    have hrest := ih (h.update x)
    rwa [List.append_assoc] at hrest

end Updates

/-! ## The last block -/

section Finish

variable {c : Sha512} {m : List UInt8} {n : ℕ}

theorem zeroTo_eq (c : Sha512) (stop : ℕ) :
    c.zeroTo stop = (List.replicate (stop - c.buflen) 0).foldl Sha512.put c := by
  rw [zeroTo]
  generalize stop - c.buflen = k
  induction k with
  | zero => rfl
  | succ k ih =>
    rw [List.range_succ, List.foldl_append, ih, List.replicate_succ', List.foldl_append]
    rfl

theorem Holds.zeroTo (h : Holds c m n) {stop : ℕ} (hle : c.buflen ≤ stop) (hstop : stop ≤ 128) :
    Holds (c.zeroTo stop) (m ++ List.replicate (stop - c.buflen) 0) n ∧
      (c.zeroTo stop).buflen = stop := by
  obtain ⟨hholds, hlen, -⟩ := h.puts (List.replicate (stop - c.buflen) 0)
    (by rw [List.length_replicate]; omega)
  rw [List.length_replicate] at hlen
  rw [zeroTo_eq]
  exact ⟨hholds, by omega⟩

/-- Bytes stored one after the other. -/
theorem foldl_update (b : ℕ → UInt8) (start n : ℕ) (v : ℕ → UInt8) (k : ℕ) :
    (List.range n).foldl (fun b i => Function.update b (start + i) (v i)) b k =
      if start ≤ k ∧ k < start + n then v (k - start) else b k := by
  induction n with
  | zero => rw [if_neg (by omega), List.range_zero, List.foldl_nil]
  | succ n ih =>
    rw [List.range_succ, List.foldl_append, List.foldl_cons, List.foldl_nil]
    by_cases hlast : k = start + n
    · rw [hlast, Function.update_self, if_pos (by omega), Nat.add_sub_cancel_left]
    · rw [Function.update_of_ne hlast, ih]
      by_cases hin : start ≤ k ∧ k < start + n
      · rw [if_pos hin, if_pos (by omega)]
      · rw [if_neg hin, if_neg (by omega)]

theorem getD_bytes (n : ℕ) (x : BitVec (8 * n)) {i : ℕ} (hi : i < n) :
    (Sha2.bytes n x).getD i 0 = UInt8.ofBitVec (x.extractLsb' (8 * (n - 1 - i)) 8) := by
  simp [Sha2.bytes, List.getD_eq_getElem?_getD, hi]

/-- The two halves of the length, of which the higher is zero. -/
theorem getD_length {l : ℕ} (hl : l < 2 ^ 64) {i : ℕ} (hi : i < 8) :
    (Sha2.bytes 16 (BitVec.ofNat 128 l)).getD i 0 = 0 ∧
      (Sha2.bytes 16 (BitVec.ofNat 128 l)).getD (8 + i) 0 =
        (UInt64.ofNat l >>> UInt64.ofNat ((7 - i) * 8)).toUInt8 := by
  have hmod : l % 2 ^ 128 = l := Nat.mod_eq_of_lt (by omega)
  constructor
  · rw [getD_bytes _ _ (by omega), ← UInt8.toNat_inj, UInt8.toNat_ofBitVec, BitVec.extractLsb'_toNat,
      BitVec.toNat_ofNat, hmod, Nat.shiftRight_eq_div_pow, Nat.div_eq_of_lt]
    · rfl
    · exact Nat.lt_of_lt_of_le hl (Nat.pow_le_pow_right (by decide) (by omega))
  · rw [getD_bytes _ _ (by omega), ← UInt8.toNat_inj, UInt8.toNat_ofBitVec, BitVec.extractLsb'_toNat,
      BitVec.toNat_ofNat, hmod, UInt64.toNat_toUInt8, UInt64.toNat_shiftRight, UInt64.toNat_ofNat',
      UInt64.toNat_ofNat', Nat.mod_eq_of_lt hl, Nat.mod_eq_of_lt (b := 2 ^ 64) (by omega),
      Nat.mod_eq_of_lt (b := 64) (by omega), show 8 * (16 - 1 - (8 + i)) = (7 - i) * 8 by omega]

/-- The one bit and the zeros go in up to where the length goes. -/
theorem Represents.zeros (h : Represents c m) :
    ∃ n z, Holds ((if 112 < (c.put 0x80).buflen then ((c.put 0x80).zeroTo 128).flush
        else c.put 0x80).zeroTo 112) (m ++ [0x80] ++ List.replicate z 0) n ∧
      ((if 112 < (c.put 0x80).buflen then ((c.put 0x80).zeroTo 128).flush
        else c.put 0x80).zeroTo 112).buflen = 112 ∧ z < 128 := by
  obtain ⟨⟨n, hholds⟩, hroom, -⟩ := h
  have hput := hholds.put hroom 0x80
  by_cases hlate : 112 < (c.put 0x80).buflen
  · rw [if_pos hlate]
    obtain ⟨hfull, hlen⟩ := hput.zeroTo hput.room (Nat.le_refl 128)
    have hroom : (((c.put 0x80).zeroTo 128).flush).buflen ≤ 112 := by
      rw [buflen_flush]
      decide
    obtain ⟨hrest, hlen'⟩ := (hfull.flush hlen).zeroTo hroom (by decide)
    rw [List.append_assoc, List.replicate_append_replicate, buflen_flush] at hrest
    refine ⟨_, _, hrest, hlen', ?_⟩
    omega
  · rw [if_neg hlate]
    obtain ⟨hrest, hlen⟩ := hput.zeroTo (Nat.le_of_not_lt hlate) (by decide)
    refine ⟨_, _, hrest, hlen, ?_⟩
    omega

/-- The padded message, with its length as a word counts it. -/
def padWord (m : List UInt8) : List UInt8 :=
  m ++ [0x80] ++ List.replicate (Sha2.zeroBits (8 * m.length) / 8) 0 ++
    Sha2.bytes 16 (BitVec.ofNat 128 (8 * m.length % 2 ^ 64))

/-- The last block makes the padded message whole. -/
theorem Represents.finish (h : Represents c m) :
    c.finish.state.map UInt64.toBitVec =
      Sha2.absorb (padWord m) ((padWord m).length / 128) := by
  obtain ⟨n, z, hholds, hbuflen, hz⟩ := h.zeros
  generalize hlast : ((if 112 < (c.put 0x80).buflen then ((c.put 0x80).zeroTo 128).flush
    else c.put 0x80).zeroTo 112) = d at hholds hbuflen
  have hlength := hholds.length
  rw [hbuflen] at hlength
  simp only [List.length_append, List.length_singleton, List.length_replicate] at hlength
  have hpad : padWord m = m ++ [0x80] ++ List.replicate z 0 ++
      Sha2.bytes 16 (BitVec.ofNat 128 (8 * m.length % 2 ^ 64)) := by
    rw [padWord, show Sha2.zeroBits (8 * m.length) / 8 = z by unfold Sha2.zeroBits; omega]
  have hbytes : (Sha2.bytes 16 (BitVec.ofNat 128 (8 * m.length % 2 ^ 64))).length = 16 := by
    rw [Sha2.bytes, List.length_map, List.length_range]
  have hword : 8 * m.length % 2 ^ 64 < 2 ^ 64 := Nat.mod_lt _ (by decide)
  have htotal : c.total * 8 = UInt64.ofNat (8 * m.length % 2 ^ 64) := by
    rw [h.total, ← UInt64.toNat_inj, UInt64.toNat_mul, UInt64.toNat_ofNat', UInt64.toNat_ofNat',
      show (8 : UInt64).toNat = 8 from rfl]
    omega
  have hblocks : (padWord m).length / 128 = n + 1 := by
    rw [hpad]
    simp only [List.length_append, List.length_singleton, List.length_replicate, hbytes]
    omega
  rw [hblocks, hpad, Sha512.finish]
  simp only [hlast]
  apply state_block_of
  · rw [Sha2.absorb_append _ _ (by simp only [List.length_append, List.length_singleton, List.length_replicate]; omega)]
    exact hholds.state
  · simp only [List.length_append, List.length_singleton, List.length_replicate, hbytes]
    omega
  · intro k hk
    have hfront : (m ++ [0x80] ++ List.replicate z 0).length = 128 * n + 112 := by
      simp only [List.length_append, List.length_singleton, List.length_replicate]
      omega
    rw [foldl_update, foldl_update, htotal]
    rcases Nat.lt_or_ge k 112 with hfore | hback
    · rw [if_neg (by omega), if_neg (by omega), hholds.buf k (by omega),
        List.getD_append (m ++ [0x80] ++ List.replicate z 0) _ _ _ (by omega)]
    · obtain ⟨hhigh, hlow⟩ := getD_length (l := 8 * m.length % 2 ^ 64) hword
        (show (k - 112) % 8 < 8 from Nat.mod_lt _ (by decide))
      rw [List.getD_append_right _ _ _ _ (by omega), hfront,
        show 128 * n + k - (128 * n + 112) = k - 112 by omega]
      rcases Nat.lt_or_ge k 120 with hfirst | hsecond
      · rw [if_neg (by omega), if_pos (by omega)]
        rw [show (k - 112) % 8 = k - 112 by omega] at hhigh
        exact hhigh.symm
      · rw [if_pos (by omega)]
        rw [show 8 + (k - 112) % 8 = k - 112 by omega, show (k - 112) % 8 = k - 120 by omega] at hlow
        exact hlow.symm

theorem padWord_eq (hm : m.length < 2 ^ 61) : padWord m = Sha2.pad m := by
  rw [padWord, Sha2.pad, Nat.mod_eq_of_lt (by omega)]

theorem final_eq (c : Sha512) :
    c.final = (c.finish.state.map UInt64.toBitVec).toList.flatMap (Sha2.bytes 8) := by
  have hword : ∀ v : UInt64,
      ((List.range 8).map fun j => (v >>> UInt64.ofNat ((7 - j) * 8)).toUInt8) =
        Sha2.bytes 8 v.toBitVec := by
    intro v
    rw [Sha2.bytes]
    apply List.map_congr_left
    intro j hj
    rw [List.mem_range] at hj
    symm
    rw [← UInt8.toNat_inj, UInt8.toNat_ofBitVec, BitVec.extractLsb'_toNat, UInt64.toNat_toUInt8,
      UInt64.toNat_shiftRight, UInt64.toNat_ofNat', Nat.mod_eq_of_lt (b := 2 ^ 64) (by omega),
      Nat.mod_eq_of_lt (b := 64) (by omega), show 8 * (8 - 1 - j) = (7 - j) * 8 by omega,
      UInt64.toNat_toBitVec]
  rw [final]
  simp only [hword, Regs.map, Regs.toList, List.flatMap_cons, List.flatMap_nil]

/-- The digest depends on the message alone. -/
theorem Represents.final (h : Represents c m) :
    c.final = (Sha2.absorb (padWord m) ((padWord m).length / 128)).toList.flatMap (Sha2.bytes 8) := by
  rw [final_eq, h.finish]

/-- The digest of a message that came in pieces is that of the standard. -/
theorem final_updates (chunks : List (List UInt8)) (h : chunks.flatten.length < 2 ^ 61) :
    (chunks.foldl Sha512.update newSha512).final = Sha2.digest chunks.flatten := by
  have hchunks := represents_updates chunks represents_newSha512
  rw [List.nil_append] at hchunks
  rw [hchunks.final, padWord_eq h, Sha2.digest]

/-- Messages in different pieces have one digest, however long they are. -/
theorem final_flatten {chunks chunks' : List (List UInt8)} (h : chunks.flatten = chunks'.flatten) :
    (chunks.foldl Sha512.update newSha512).final = (chunks'.foldl Sha512.update newSha512).final := by
  rw [(represents_updates chunks represents_newSha512).final,
    (represents_updates chunks' represents_newSha512).final, h]

/-- However a message is split into updates, its digest is that of the standard, as it is in one
call. -/
theorem final_chunks (chunks : List (List UInt8)) (h : chunks.flatten.length < 2 ^ 61) :
    (chunks.foldl Sha512.update newSha512).final = Sha2.digest chunks.flatten ∧
      sum512 chunks.flatten = Sha2.digest chunks.flatten := by
  constructor
  · exact final_updates chunks h
  · have honce := represents_newSha512.update chunks.flatten
    rw [List.nil_append] at honce
    rw [sum512, honce.final, padWord_eq h, Sha2.digest]

theorem final_chunks_abc :
    ([[0x61], [], [0x62, 0x63]].foldl Sha512.update newSha512).final =
      Sha2.digest [0x61, 0x62, 0x63] :=
  (final_chunks [[0x61], [], [0x62, 0x63]] (by decide)).1

end Finish

end Sha512

end BloblyEmb.Bcrypto
