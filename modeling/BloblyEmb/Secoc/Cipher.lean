import Mathlib.Data.Fintype.Basic
import Mathlib.Tactic.FinCases
import BloblyEmb.Lib.Aes
import BloblyEmb.Secoc.Cmac

/-!
# The cipher is AES-128

The S-box table, the unrolled rows, the columns by `xtime` and the round keys in one array of the
code, against the standard: the round keys are the words of the key schedule, each step of a round
is the step of the state, and so is the block that comes out.
-/
namespace BloblyEmb.Secoc

open Aes (State)

/-! ## Bytes -/

theorem byte_forall {P : UInt8 → Prop} (h : ∀ n : Fin 256, P (UInt8.ofNat n)) (x : UInt8) : P x := by
  have hx := h ⟨x.toNat, x.toNat_lt⟩
  rwa [UInt8.ofNat_toNat] at hx

/-- The table is the S-box. -/
theorem sub_eq (x : UInt8) : sub x = Aes.sBox x := by
  -- a quarter of the table at a time
  have h0 : ∀ n : Fin 64, sub (UInt8.ofNat n) = Aes.sBox (UInt8.ofNat n) := by decide +kernel
  have h1 : ∀ n : Fin 64, sub (UInt8.ofNat (64 + n)) = Aes.sBox (UInt8.ofNat (64 + n)) := by decide +kernel
  have h2 : ∀ n : Fin 64, sub (UInt8.ofNat (128 + n)) = Aes.sBox (UInt8.ofNat (128 + n)) := by
    decide +kernel
  have h3 : ∀ n : Fin 64, sub (UInt8.ofNat (192 + n)) = Aes.sBox (UInt8.ofNat (192 + n)) := by
    decide +kernel
  refine byte_forall (P := fun x => sub x = Aes.sBox x) (fun n => ?_) x
  obtain hn | hn | hn | hn : n.val < 64 ∨ (64 ≤ n.val ∧ n.val < 128) ∨
      (128 ≤ n.val ∧ n.val < 192) ∨ 192 ≤ n.val := by omega
  · exact h0 ⟨n, hn⟩
  · have h := h1 ⟨n - 64, by omega⟩
    rwa [Nat.add_sub_of_le hn.1] at h
  · have h := h2 ⟨n - 128, by omega⟩
    rwa [Nat.add_sub_of_le hn.1] at h
  · have h := h3 ⟨n - 192, by omega⟩
    rwa [Nat.add_sub_of_le hn] at h

theorem mul_one_eq (x : UInt8) : Aes.mul 1 x = x := by
  refine byte_forall (P := fun x => Aes.mul 1 x = x) ?_ x
  decide +kernel

theorem mul_two_eq (x : UInt8) : Aes.mul 2 x = xtime x := by
  refine byte_forall (P := fun x => Aes.mul 2 x = xtime x) ?_ x
  decide +kernel

theorem mul_three_eq (x : UInt8) : Aes.mul 3 x = xtime x ^^^ x := by
  refine byte_forall (P := fun x => Aes.mul 3 x = xtime x ^^^ x) ?_ x
  decide +kernel

theorem rcon_eq {j : ℕ} (h : 1 ≤ j) (h' : j ≤ 10) : rcon.getD (j - 1) 0 = Aes.rcon j := by
  have hall : ∀ j : Fin 10, rcon.getD j 0 = (Aes.mul 2)^[j] 1 := by decide +kernel
  exact hall ⟨j - 1, by omega⟩

/-! ## The round keys -/

theorem length_expandWord (rk : List UInt8) (i : ℕ) : (expandWord rk i).length = rk.length + 4 := by
  simp [expandWord]

/-- The array of round keys, 4 words of a key and `n` more, holds the key schedule. -/
def Scheduled (key rk : List UInt8) (n : ℕ) : Prop :=
  rk.length = 16 + 4 * n ∧ ∀ i b : ℕ, (hb : b < 4) → i < 4 + n →
    rk.getD (4 * i + b) 0 = Aes.expand key i ⟨b, hb⟩

theorem Scheduled.step {key rk : List UInt8} {n : ℕ} (h : Scheduled key rk n) (hn : n < 40) :
    Scheduled key (expandWord rk (16 + 4 * n)) (n + 1) := by
  obtain ⟨hlen, hword⟩ := h
  refine ⟨by rw [length_expandWord, hlen]; omega, fun i b hb hi => ?_⟩
  by_cases hlt : i < 4 + n
  · rw [← hword i b hb hlt, expandWord, List.getD_append _ _ _ _ (by omega)]
  · obtain rfl : i = 4 + n := by omega
    have h0 : ∀ b (hb : b < 4), rk.getD (4 * n + b) 0 = Aes.expand key n ⟨b, hb⟩ :=
      fun b hb => hword n b hb (by omega)
    have h1 : ∀ b (hb : b < 4), rk.getD (4 * (3 + n) + b) 0 = Aes.expand key (3 + n) ⟨b, hb⟩ :=
      fun b hb => hword (3 + n) b hb (by omega)
    rw [Aes.expand_of_le (by omega), show 4 + n - 4 = n by omega, show 4 + n - 1 = 3 + n by omega]
    rw [expandWord, List.getD_append_right _ _ _ _ (by omega),
      show 4 * (4 + n) + b - rk.length = b by omega]
    simp only [show 16 + 4 * n - 4 = 4 * (3 + n) + 0 by omega,
      show 16 + 4 * n - 3 = 4 * (3 + n) + 1 by omega, show 16 + 4 * n - 2 = 4 * (3 + n) + 2 by omega,
      show 16 + 4 * n - 1 = 4 * (3 + n) + 3 by omega, show 16 + 4 * n - 16 = 4 * n + 0 by omega,
      show 16 + 4 * n - 15 = 4 * n + 1 by omega, show 16 + 4 * n - 14 = 4 * n + 2 by omega,
      show 16 + 4 * n - 13 = 4 * n + 3 by omega, h0 0 (by omega), h0 1 (by omega), h0 2 (by omega),
      h0 3 (by omega), h1 0 (by omega), h1 1 (by omega), h1 2 (by omega), h1 3 (by omega)]
    have hcases : b = 0 ∨ b = 1 ∨ b = 2 ∨ b = 3 := by omega
    by_cases hi : (4 + n) % 4 = 0
    · simp only [show (16 + 4 * n) % 16 = 0 by omega, if_true, hi,
        show (16 + 4 * n) / 16 = (4 + n) / 4 by omega,
        rcon_eq (j := (4 + n) / 4) (by omega) (by omega)]
      rcases hcases with rfl | rfl | rfl | rfl <;> simp [sub_eq]
    · simp only [show ¬(16 + 4 * n) % 16 = 0 by omega, if_false, hi]
      rcases hcases with rfl | rfl | rfl | rfl <;> rfl

theorem newKey_scheduled {key : List UInt8} (hkey : key.length = 16) :
    Scheduled key (newKey key).rk 40 := by
  have hrun : ∀ n ≤ 40, Scheduled key
      ((List.range n).foldl (fun rk w => expandWord rk (16 + 4 * w)) key) n := by
    intro n hn
    induction n with
    | zero =>
      exact ⟨hkey, fun i b hb hi => (Aes.expand_of_lt (by omega) ⟨b, hb⟩).symm⟩
    | succ n ih =>
      rw [List.range_succ, List.foldl_append]
      exact (ih (by omega)).step (by omega)
  exact hrun 40 (by omega)

/-! ## The rounds -/

theorem load_xorBlock (s t : List UInt8) (r c : Fin 4) :
    State.load (xorBlock s t) r c = State.load s r c ^^^ t.getD (r + 4 * c) 0 := by
  have hlt : (r : ℕ) + 4 * c < 16 := by omega
  simp [State.load, xorBlock, List.getD_eq_getElem?_getD, hlt]

theorem load_addRoundKey {key rk : List UInt8} (h : Scheduled key rk 40) {round : ℕ}
    (hround : round ≤ 10) (s : List UInt8) :
    State.load (xorBlock s (rk.drop (16 * round))) =
      Aes.addRoundKey (Aes.expand key) round (State.load s) := by
  funext r c
  have hword := h.2 (4 * round + c) r r.isLt (by omega)
  have hidx : 16 * round + (r + 4 * c : ℕ) = 4 * (4 * round + c) + r := by omega
  rw [load_xorBlock, Aes.addRoundKey, ← hword, List.getD_eq_getElem?_getD, List.getElem?_drop, hidx,
    ← List.getD_eq_getElem?_getD]

theorem load_sub {s : List UInt8} (hs : s.length = 16) :
    State.load (s.map sub) = Aes.subBytes (State.load s) := by
  funext r c
  have hlt : (r : ℕ) + 4 * c < s.length := by omega
  simp [State.load, Aes.subBytes, List.getD_eq_getElem?_getD, hlt, sub_eq]

theorem load_shiftRows (s : List UInt8) :
    State.load (shiftRows s) = Aes.shiftRows (State.load s) := by
  funext r c
  fin_cases r <;> fin_cases c <;> rfl

theorem load_mixColumns (s : List UInt8) :
    State.load (mixColumns s) = Aes.mixColumns (State.load s) := by
  funext r c
  fin_cases r <;> fin_cases c <;>
    simp [State.load, Aes.mixColumns, Aes.mixMatrix, mixColumns, mixColumn, List.range_succ,
      List.finRange_succ, mul_one_eq, mul_two_eq, mul_three_eq]

theorem length_xorBlock (s t : List UInt8) : (xorBlock s t).length = 16 := by
  simp [xorBlock]

theorem length_encryptRound (rk s : List UInt8) (round : ℕ) :
    (encryptRound rk s round).length = 16 := length_xorBlock _ _

section Rounds

variable {key rk s : List UInt8} (h : Scheduled key rk 40)
include h

/-- A round that mixes the columns. -/
theorem load_encryptRound (hs : s.length = 16) {round : ℕ} (hround : round < 10) :
    State.load (encryptRound rk s round) =
      Aes.addRoundKey (Aes.expand key) round
        (Aes.mixColumns (Aes.shiftRows (Aes.subBytes (State.load s)))) := by
  rw [encryptRound, if_neg (by omega), load_addRoundKey h (by omega), load_mixColumns,
    load_shiftRows, load_sub hs]

/-- The last round does not. -/
theorem load_lastRound (hs : s.length = 16) :
    State.load (encryptRound rk s 10) =
      Aes.addRoundKey (Aes.expand key) 10 (Aes.shiftRows (Aes.subBytes (State.load s))) := by
  rw [encryptRound, if_pos rfl, load_addRoundKey h (by omega), load_shiftRows, load_sub hs]

/-- `encrypt_block` is AES-128. -/
theorem encryptBlock_eq : encryptBlock rk s = Aes.encrypt key s := by
  have hrun : ∀ n ≤ 9,
      ((List.range n).foldl (fun s r => encryptRound rk s (r + 1)) (xorBlock s rk)).length = 16 ∧
        State.load ((List.range n).foldl (fun s r => encryptRound rk s (r + 1)) (xorBlock s rk)) =
          (List.range n).foldl (fun s i => Aes.addRoundKey (Aes.expand key) (i + 1)
            (Aes.mixColumns (Aes.shiftRows (Aes.subBytes s))))
              (Aes.addRoundKey (Aes.expand key) 0 (State.load s)) := by
    intro n hn
    induction n with
    | zero =>
      exact ⟨length_xorBlock _ _, load_addRoundKey h (Nat.zero_le 10) s⟩
    | succ n ih =>
      obtain ⟨hlen, hload⟩ := ih (by omega)
      simp only [List.range_succ, List.foldl_append, List.foldl_cons, List.foldl_nil]
      refine ⟨length_encryptRound _ _ _, ?_⟩
      rw [load_encryptRound h hlen (by omega), hload]
  obtain ⟨hlen, hload⟩ := hrun 9 le_rfl
  have hlast : encryptBlock rk s = encryptRound rk
      ((List.range 9).foldl (fun s r => encryptRound rk s (r + 1)) (xorBlock s rk)) 10 := by
    rw [encryptBlock, List.range_succ, List.foldl_append]
    rfl
  rw [hlast, Aes.encrypt, Aes.cipher, ← hload, ← load_lastRound h hlen,
    Aes.bytes_load (length_encryptRound _ _ _)]

end Rounds

end BloblyEmb.Secoc
