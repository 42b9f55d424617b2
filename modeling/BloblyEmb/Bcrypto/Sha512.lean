import BloblyEmb.Lib.Sha2

/-!
# SHA-512 in chunks

The boot manager hashes an image in chunks as it reads them (`bcrypto/sha512.v`). A context keeps the
state after the blocks that are full, and in its buffer what waits for its block to fill.
-/
namespace BloblyEmb.Bcrypto

open Sha2 (Regs)

def sha512H0 : Regs UInt64 where
  a := 0x6a09e667f3bcc908
  b := 0xbb67ae8584caa73b
  c := 0x3c6ef372fe94f82b
  d := 0xa54ff53a5f1d36f1
  e := 0x510e527fade682d1
  f := 0x9b05688c2b3e6c1f
  g := 0x1f83d9abfb41bd6b
  h := 0x5be0cd19137e2179

def sha512K : List UInt64 :=
  [0x428a2f98d728ae22, 0x7137449123ef65cd, 0xb5c0fbcfec4d3b2f, 0xe9b5dba58189dbbc,
   0x3956c25bf348b538, 0x59f111f1b605d019, 0x923f82a4af194f9b, 0xab1c5ed5da6d8118,
   0xd807aa98a3030242, 0x12835b0145706fbe, 0x243185be4ee4b28c, 0x550c7dc3d5ffb4e2,
   0x72be5d74f27b896f, 0x80deb1fe3b1696b1, 0x9bdc06a725c71235, 0xc19bf174cf692694,
   0xe49b69c19ef14ad2, 0xefbe4786384f25e3, 0x0fc19dc68b8cd5b5, 0x240ca1cc77ac9c65,
   0x2de92c6f592b0275, 0x4a7484aa6ea6e483, 0x5cb0a9dcbd41fbd4, 0x76f988da831153b5,
   0x983e5152ee66dfab, 0xa831c66d2db43210, 0xb00327c898fb213f, 0xbf597fc7beef0ee4,
   0xc6e00bf33da88fc2, 0xd5a79147930aa725, 0x06ca6351e003826f, 0x142929670a0e6e70,
   0x27b70a8546d22ffc, 0x2e1b21385c26c926, 0x4d2c6dfc5ac42aed, 0x53380d139d95b3df,
   0x650a73548baf63de, 0x766a0abb3c77b2a8, 0x81c2c92e47edaee6, 0x92722c851482353b,
   0xa2bfe8a14cf10364, 0xa81a664bbc423001, 0xc24b8b70d0f89791, 0xc76c51a30654be30,
   0xd192e819d6ef5218, 0xd69906245565a910, 0xf40e35855771202a, 0x106aa07032bbd1b8,
   0x19a4c116b8d2d0c8, 0x1e376c085141ab53, 0x2748774cdf8eeb99, 0x34b0bcb5e19b48a8,
   0x391c0cb3c5c95a63, 0x4ed8aa4ae3418acb, 0x5b9cca4f7763e373, 0x682e6ff3d6b2b8a3,
   0x748f82ee5defb2fc, 0x78a5636f43172f60, 0x84c87814a1f0ab72, 0x8cc702081a6439ec,
   0x90befffa23631e28, 0xa4506cebde82bde9, 0xbef9a3f7b2c67915, 0xc67178f2e372532b,
   0xca273eceea26619c, 0xd186b8c721c0c207, 0xeada7dd6cde0eb1e, 0xf57d4f7fee6ed178,
   0x06f067aa72176fba, 0x0a637dc5a2c898a6, 0x113f9804bef90dae, 0x1b710b35131c471b,
   0x28db77f523047d84, 0x32caab7b40c72493, 0x3c9ebe0a15c9bebc, 0x431d67c49c100d4c,
   0x4cc5d4becb3e42b6, 0x597f299cfc657e2a, 0x5fcb6fab3ad6faec, 0x6c44198c4a475817]

structure Sha512 where
  state : Regs UInt64
  buf : ℕ → UInt8 := fun _ => 0
  buflen : ℕ := 0
  /-- The length so far, in bytes. -/
  total : UInt64 := 0

def ror64 (x : UInt64) (n : ℕ) : UInt64 :=
  (x >>> UInt64.ofNat n) ||| (x <<< UInt64.ofNat (64 - n))

namespace Sha512

def newSha512 : Sha512 := { state := sha512H0 }

def load (p : ℕ → UInt8) (b : ℕ) : UInt64 :=
  ((p b).toUInt64 <<< 56) ||| ((p (b + 1)).toUInt64 <<< 48) ||| ((p (b + 2)).toUInt64 <<< 40) |||
    ((p (b + 3)).toUInt64 <<< 32) ||| ((p (b + 4)).toUInt64 <<< 24) |||
    ((p (b + 5)).toUInt64 <<< 16) ||| ((p (b + 6)).toUInt64 <<< 8) ||| (p (b + 7)).toUInt64

/-- The word that the schedule goes on with, from the words before it. -/
def next (w : List UInt64) (t : ℕ) : UInt64 :=
  let w15 := w.getD (t - 15) 0
  let w2 := w.getD (t - 2) 0
  let s0 := ror64 w15 1 ^^^ ror64 w15 8 ^^^ (w15 >>> 7)
  let s1 := ror64 w2 19 ^^^ ror64 w2 61 ^^^ (w2 >>> 6)
  w.getD (t - 16) 0 + s0 + w.getD (t - 7) 0 + s1

def words (p : ℕ → UInt8) : List UInt64 :=
  (List.range 64).foldl (fun w t => w.set (16 + t) (next w (16 + t)))
    ((List.range 16).foldl (fun w t => w.set t (load p (t * 8))) (List.replicate 80 0))

def round (k w : UInt64) (r : Regs UInt64) : Regs UInt64 :=
  let big1 := ror64 r.e 14 ^^^ ror64 r.e 18 ^^^ ror64 r.e 41
  let ch := (r.e &&& r.f) ^^^ (~~~r.e &&& r.g)
  let t1 := r.h + big1 + ch + k + w
  let big0 := ror64 r.a 28 ^^^ ror64 r.a 34 ^^^ ror64 r.a 39
  let maj := (r.a &&& r.b) ^^^ (r.a &&& r.c) ^^^ (r.b &&& r.c)
  let t2 := big0 + maj
  ⟨t1 + t2, r.a, r.b, r.c, r.d + t1, r.e, r.f, r.g⟩

def block (c : Sha512) (p : ℕ → UInt8) : Sha512 :=
  let w := words p
  { c with
    state := c.state.add
      ((List.range 80).foldl (fun r t => round (sha512K.getD t 0) (w.getD t 0) r) c.state) }

def put (c : Sha512) (x : UInt8) : Sha512 :=
  { c with buf := Function.update c.buf c.buflen x, buflen := c.buflen + 1 }

/-- Bytes go into a partial buffer until it is full; what is left of them. -/
def fill (c : Sha512) : List UInt8 → Sha512 × List UInt8
  | [] => (c, [])
  | x :: xs => if c.buflen < 128 then (c.put x).fill xs else (c, x :: xs)

/-- A full buffer is hashed. -/
def flush (c : Sha512) : Sha512 := { c.block c.buf with buflen := 0 }

/-- Whole blocks are hashed where they are; the first argument bounds the loop. -/
def blocks (c : Sha512) : ℕ → List UInt8 → Sha512 × List UInt8
  | 0, data => (c, data)
  | k + 1, data =>
    if 128 ≤ data.length then (c.block fun i => data.getD i 0).blocks k (data.drop 128)
    else (c, data)

def update (c : Sha512) (data : List UInt8) : Sha512 :=
  let c := { c with total := c.total + UInt64.ofNat data.length }
  let (c, rest) :=
    if 0 < c.buflen then
      let (c, rest) := c.fill data
      (if c.buflen = 128 then c.flush else c, rest)
    else (c, data)
  let (c, rest) := c.blocks rest.length rest
  rest.foldl put c

/-- Zeros up to a place in the buffer. -/
def zeroTo (c : Sha512) (stop : ℕ) : Sha512 :=
  (List.range (stop - c.buflen)).foldl (fun c _ => c.put 0) c

/-- The context as its last block goes in. -/
def finish (c : Sha512) : Sha512 :=
  let bitlen := c.total * 8
  let c := c.put 0x80
  let c := if 112 < c.buflen then (c.zeroTo 128).flush else c
  let c := c.zeroTo 112
  let buf := (List.range 8).foldl (fun b i => Function.update b (112 + i) 0) c.buf
  let buf := (List.range 8).foldl (fun b i =>
    Function.update b (120 + i) (bitlen >>> UInt64.ofNat ((7 - i) * 8)).toUInt8) buf
  { c with buf := buf }.block buf

def final (c : Sha512) : List UInt8 :=
  c.finish.state.toList.flatMap fun v =>
    (List.range 8).map fun j => (v >>> UInt64.ofNat ((7 - j) * 8)).toUInt8

def sum512 (data : List UInt8) : List UInt8 := (newSha512.update data).final

end Sha512

end BloblyEmb.Bcrypto
