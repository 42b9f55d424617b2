import Mathlib.Logic.Function.Basic
import Mathlib.Tactic.Common

/-!
# Authenticated frames

A frame carries a freshness counter and a truncated AES-128 CMAC (`comm/secoc`): the cipher and the
MAC as the code computes them, the sender that stamps both, and the receiver that verifies them.
-/
namespace BloblyEmb.Secoc

def sbox : List UInt8 := [
  0x63, 0x7c, 0x77, 0x7b, 0xf2, 0x6b, 0x6f, 0xc5, 0x30, 0x01, 0x67, 0x2b, 0xfe,
  0xd7, 0xab, 0x76, 0xca, 0x82, 0xc9, 0x7d, 0xfa, 0x59, 0x47, 0xf0, 0xad, 0xd4, 0xa2, 0xaf,
  0x9c, 0xa4, 0x72, 0xc0, 0xb7, 0xfd, 0x93, 0x26, 0x36, 0x3f, 0xf7, 0xcc, 0x34, 0xa5, 0xe5,
  0xf1, 0x71, 0xd8, 0x31, 0x15, 0x04, 0xc7, 0x23, 0xc3, 0x18, 0x96, 0x05, 0x9a, 0x07, 0x12,
  0x80, 0xe2, 0xeb, 0x27, 0xb2, 0x75, 0x09, 0x83, 0x2c, 0x1a, 0x1b, 0x6e, 0x5a, 0xa0, 0x52,
  0x3b, 0xd6, 0xb3, 0x29, 0xe3, 0x2f, 0x84, 0x53, 0xd1, 0x00, 0xed, 0x20, 0xfc, 0xb1, 0x5b,
  0x6a, 0xcb, 0xbe, 0x39, 0x4a, 0x4c, 0x58, 0xcf, 0xd0, 0xef, 0xaa, 0xfb, 0x43, 0x4d, 0x33,
  0x85, 0x45, 0xf9, 0x02, 0x7f, 0x50, 0x3c, 0x9f, 0xa8, 0x51, 0xa3, 0x40, 0x8f, 0x92, 0x9d,
  0x38, 0xf5, 0xbc, 0xb6, 0xda, 0x21, 0x10, 0xff, 0xf3, 0xd2, 0xcd, 0x0c, 0x13, 0xec, 0x5f,
  0x97, 0x44, 0x17, 0xc4, 0xa7, 0x7e, 0x3d, 0x64, 0x5d, 0x19, 0x73, 0x60, 0x81, 0x4f, 0xdc,
  0x22, 0x2a, 0x90, 0x88, 0x46, 0xee, 0xb8, 0x14, 0xde, 0x5e, 0x0b, 0xdb, 0xe0, 0x32, 0x3a,
  0x0a, 0x49, 0x06, 0x24, 0x5c, 0xc2, 0xd3, 0xac, 0x62, 0x91, 0x95, 0xe4, 0x79, 0xe7, 0xc8,
  0x37, 0x6d, 0x8d, 0xd5, 0x4e, 0xa9, 0x6c, 0x56, 0xf4, 0xea, 0x65, 0x7a, 0xae, 0x08, 0xba,
  0x78, 0x25, 0x2e, 0x1c, 0xa6, 0xb4, 0xc6, 0xe8, 0xdd, 0x74, 0x1f, 0x4b, 0xbd, 0x8b, 0x8a,
  0x70, 0x3e, 0xb5, 0x66, 0x48, 0x03, 0xf6, 0x0e, 0x61, 0x35, 0x57, 0xb9, 0x86, 0xc1, 0x1d,
  0x9e, 0xe1, 0xf8, 0x98, 0x11, 0x69, 0xd9, 0x8e, 0x94, 0x9b, 0x1e, 0x87, 0xe9, 0xce, 0x55,
  0x28, 0xdf, 0x8c, 0xa1, 0x89, 0x0d, 0xbf, 0xe6, 0x42, 0x68, 0x41, 0x99, 0x2d, 0x0f, 0xb0,
  0x54, 0xbb, 0x16]

def rcon : List UInt8 := [0x01, 0x02, 0x04, 0x08, 0x10, 0x20, 0x40, 0x80, 0x1b, 0x36]

def sub (x : UInt8) : UInt8 := sbox.getD x.toNat 0

/-- The expanded round keys: 11 of 16 bytes. -/
structure Key where
  rk : List UInt8

/-- The next word of the round keys: `i` bytes are there. -/
def expandWord (rk : List UInt8) (i : ℕ) : List UInt8 :=
  let t0 := rk.getD (i - 4) 0
  let t1 := rk.getD (i - 3) 0
  let t2 := rk.getD (i - 2) 0
  let t3 := rk.getD (i - 1) 0
  let t := if i % 16 = 0 then (sub t1 ^^^ rcon.getD (i / 16 - 1) 0, sub t2, sub t3, sub t0)
    else (t0, t1, t2, t3)
  rk ++ [rk.getD (i - 16) 0 ^^^ t.1, rk.getD (i - 15) 0 ^^^ t.2.1, rk.getD (i - 14) 0 ^^^ t.2.2.1,
    rk.getD (i - 13) 0 ^^^ t.2.2.2]

/-- The round keys of a key of 16 bytes. -/
def newKey (k : List UInt8) : Key where
  rk := (List.range 40).foldl (fun rk w => expandWord rk (16 + 4 * w)) k

def xtime (x : UInt8) : UInt8 := if x &&& 0x80 ≠ 0 then (x <<< 1) ^^^ 0x1b else x <<< 1

def xorBlock (s t : List UInt8) : List UInt8 :=
  (List.range 16).map fun i => s.getD i 0 ^^^ t.getD i 0

/-- Rows 1, 2 and 3 go left by 1, 2 and 3. -/
def shiftRows (s : List UInt8) : List UInt8 :=
  [0, 5, 10, 15, 4, 9, 14, 3, 8, 13, 2, 7, 12, 1, 6, 11].map fun i => s.getD i 0

def mixColumn (a0 a1 a2 a3 : UInt8) : List UInt8 :=
  [xtime a0 ^^^ (xtime a1 ^^^ a1) ^^^ a2 ^^^ a3, a0 ^^^ xtime a1 ^^^ (xtime a2 ^^^ a2) ^^^ a3,
    a0 ^^^ a1 ^^^ xtime a2 ^^^ (xtime a3 ^^^ a3), (xtime a0 ^^^ a0) ^^^ a1 ^^^ a2 ^^^ xtime a3]

def mixColumns (s : List UInt8) : List UInt8 :=
  (List.range 4).flatMap fun c =>
    mixColumn (s.getD (4 * c) 0) (s.getD (4 * c + 1) 0) (s.getD (4 * c + 2) 0)
      (s.getD (4 * c + 3) 0)

def encryptRound (rk : List UInt8) (s : List UInt8) (round : ℕ) : List UInt8 :=
  let t := shiftRows (s.map sub)
  xorBlock (if round = 10 then t else mixColumns t) (rk.drop (16 * round))

def encryptBlock (rk : List UInt8) (s : List UInt8) : List UInt8 :=
  (List.range 10).foldl (fun s r => encryptRound rk s (r + 1)) (xorBlock s rk)

/-- The subkey operation: a block of 128 bits goes left by one. -/
def gfDouble (b : List UInt8) : List UInt8 :=
  let shifted := (List.range 16).map fun i => (b.getD i 0 <<< 1) ||| ((b.getD (i + 1) 0 >>> 7) &&& 1)
  if b.getD 0 0 &&& 0x80 ≠ 0 then shifted.set 15 (shifted.getD 15 0 ^^^ 0x87) else shifted

def cmac (rk : List UInt8) (msg : List UInt8) : List UInt8 :=
  let k1 := gfDouble (encryptBlock rk (List.replicate 16 0))
  let k2 := gfDouble k1
  let len := msg.length
  let nblocks := if (len + 15) / 16 = 0 then 1 else (len + 15) / 16
  let x := (List.range (nblocks - 1)).foldl
    (fun x i => encryptBlock rk (xorBlock x (msg.drop (16 * i)))) (List.replicate 16 0)
  let rest := msg.drop (16 * (nblocks - 1))
  let last := if 0 < len ∧ len % 16 = 0 then xorBlock rest k1 else xorBlock (rest ++ [0x80]) k2
  encryptBlock rk (xorBlock x last)

example : cmac (newKey [0x2b, 0x7e, 0x15, 0x16, 0x28, 0xae, 0xd2, 0xa6, 0xab, 0xf7, 0x15, 0x88,
      0x09, 0xcf, 0x4f, 0x3c]).rk [] =
    [0xbb, 0x1d, 0x69, 0x29, 0xe9, 0x59, 0x37, 0x28, 0x7f, 0xa3, 0x7d, 0x12, 0x9b, 0x75, 0x67,
      0x46] := by
  decide +kernel

/-! ## Frames -/

/-- The MAC of a frame: the data id, and every byte outside the field of the MAC. The buffer of the
code has 66 bytes, and an index past them is a trap. -/
def macInput (key : Key) (data : ℕ → UInt8) (dlc : ℕ) (dataId : UInt16) (macPos macLen : ℕ) :
    Option (List UInt8) :=
  let buf := (dataId >>> 8).toUInt8 :: dataId.toUInt8 ::
    ((List.range dlc).filter fun i => i < macPos || macPos + macLen ≤ i).map data
  if buf.length ≤ 66 then some (cmac key.rk buf) else none

/-- A CMAC has 16 bytes. -/
def macBytes (macLen : ℕ) : ℕ := if 16 < macLen then 16 else macLen

structure TxState where
  freshness : UInt8 := 0

def stamp (data : ℕ → UInt8) (macPos : ℕ) (mac : List UInt8) (n : ℕ) : ℕ → UInt8 :=
  (List.range n).foldl (fun d i => Function.update d (macPos + i) (mac.getD i 0)) data

def TxState.protect (t : TxState) (key : Key) (data : ℕ → UInt8) (dlc : ℕ) (dataId : UInt16)
    (freshPos macPos macLen : ℕ) : Option (TxState × (ℕ → UInt8)) :=
  let n := macBytes macLen
  let data := Function.update data freshPos t.freshness
  (macInput key data dlc dataId macPos n).map fun mac =>
    ({ freshness := t.freshness + 1 }, stamp data macPos mac n)

inductive Status where
  | ok
  | authFailed
  | replay
deriving DecidableEq

structure RxState where
  last : UInt8 := 0
  started : Bool := false

def RxState.verify (r : RxState) (key : Key) (data : ℕ → UInt8) (dlc : ℕ) (dataId : UInt16)
    (freshPos macPos macLen : ℕ) : Option (RxState × Status) :=
  let n := macBytes macLen
  (macInput key data dlc dataId macPos n).map fun mac =>
    let diff := (List.range n).foldl (fun d i => d ||| (data (macPos + i) ^^^ mac.getD i 0)) 0
    if diff ≠ 0 then (r, .authFailed)
    else
      let fresh := data freshPos
      let delta := (fresh - r.last) &&& 0xFF
      if r.started = true ∧ (delta = 0 ∨ 128 < delta) then (r, .replay)
      else ({ last := fresh, started := true }, .ok)

/-! ## A protected frame verifies -/

section Frames

variable {key : Key} {data data' : ℕ → UInt8} {dlc : ℕ} {dataId : UInt16}
  {freshPos macPos macLen n : ℕ} {mac : List UInt8}

theorem stamp_apply (j : ℕ) :
    stamp data macPos mac n j =
      if macPos ≤ j ∧ j < macPos + n then mac.getD (j - macPos) 0 else data j := by
  induction n with
  | zero =>
    rw [if_neg (by omega)]
    rfl
  | succ n ih =>
    have hsucc : stamp data macPos mac (n + 1) =
        Function.update (stamp data macPos mac n) (macPos + n) (mac.getD n 0) := by
      simp [stamp, List.range_succ]
    rw [hsucc]
    by_cases hj : j = macPos + n
    · rw [hj, Function.update_self, if_pos (by omega), Nat.add_sub_cancel_left]
    · rw [Function.update_of_ne hj, ih]
      simp only [show j < macPos + (n + 1) ↔ j < macPos + n by omega]

theorem stamp_inside {i : ℕ} (hi : i < n) :
    stamp data macPos mac n (macPos + i) = mac.getD i 0 := by
  rw [stamp_apply, if_pos (by omega), Nat.add_sub_cancel_left]

theorem stamp_outside {j : ℕ} (hj : j < macPos ∨ macPos + n ≤ j) :
    stamp data macPos mac n j = data j := by
  rw [stamp_apply, if_neg (by omega)]

theorem macInput_congr (h : ∀ i, i < macPos ∨ macPos + n ≤ i → data' i = data i) :
    macInput key data' dlc dataId macPos n = macInput key data dlc dataId macPos n := by
  have hmap : ((List.range dlc).filter fun i => i < macPos || macPos + n ≤ i).map data' =
      ((List.range dlc).filter fun i => i < macPos || macPos + n ≤ i).map data := by
    apply List.map_congr_left
    intro i hi
    apply h
    simpa using (List.mem_filter.mp hi).2
  simp only [macInput, hmap]

/-- A frame of CAN FD fits. -/
theorem macInput_isSome (hdlc : dlc ≤ 64) :
    ∃ mac, macInput key data dlc dataId macPos n = some mac := by
  have hlen : ((List.range dlc).filter fun i => i < macPos || macPos + n ≤ i).length ≤ dlc := by
    simpa using List.length_filter_le (fun i => decide (i < macPos) || decide (macPos + n ≤ i))
      (List.range dlc)
  simp only [macInput, List.length_cons, List.length_map]
  rw [if_pos (by omega)]
  exact ⟨_, rfl⟩

theorem diff_eq_zero (h : ∀ i < n, data (macPos + i) = mac.getD i 0) :
    (List.range n).foldl (fun d i => d ||| (data (macPos + i) ^^^ mac.getD i 0)) 0 = (0 : UInt8) := by
  induction n with
  | zero => rfl
  | succ n ih =>
    rw [List.range_succ, List.foldl_append, ih fun i hi => h i (by omega)]
    simp [h n (by omega)]

/-- What the sender stamps. -/
theorem TxState.protect_spec (t : TxState) (key : Key) (data : ℕ → UInt8) (dataId : UInt16)
    (freshPos macPos macLen : ℕ) (hdlc : dlc ≤ 64) :
    ∃ mac, macInput key (Function.update data freshPos t.freshness) dlc dataId macPos
        (macBytes macLen) = some mac ∧
      t.protect key data dlc dataId freshPos macPos macLen =
        some ({ freshness := t.freshness + 1 },
          stamp (Function.update data freshPos t.freshness) macPos mac (macBytes macLen)) := by
  obtain ⟨mac, hmac⟩ : ∃ mac, macInput key (Function.update data freshPos t.freshness) dlc dataId
      macPos (macBytes macLen) = some mac := macInput_isSome hdlc
  exact ⟨mac, hmac, by simp [TxState.protect, hmac]⟩

/-- The receiver finds the MAC of a frame right that the sender stamped, and judges its freshness. -/
theorem RxState.verify_stamped (r : RxState)
    (hmac : macInput key data dlc dataId macPos (macBytes macLen) = some mac)
    (hfresh : freshPos < macPos ∨ macPos + macBytes macLen ≤ freshPos) :
    r.verify key (stamp data macPos mac (macBytes macLen)) dlc dataId freshPos macPos macLen =
      some (if r.started = true ∧ ((data freshPos - r.last) &&& 0xFF = 0 ∨
          128 < (data freshPos - r.last) &&& 0xFF) then (r, .replay)
        else ({ last := data freshPos, started := true }, .ok)) := by
  have hsame : macInput key (stamp data macPos mac (macBytes macLen)) dlc dataId macPos
      (macBytes macLen) = some mac := by
    rw [← hmac]
    exact macInput_congr fun i hi => stamp_outside hi
  have hinside : ∀ i < macBytes macLen,
      stamp data macPos mac (macBytes macLen) (macPos + i) = mac.getD i 0 := by
    intro i hi
    exact stamp_inside hi
  have hdiff := diff_eq_zero hinside
  simp only [RxState.verify, hsame, Option.map_some, hdiff, stamp_outside hfresh, ne_eq,
    not_true_eq_false, if_false]

end Frames

end BloblyEmb.Secoc
