import BloblyEmb.Uds.Application
import Mathlib.Algebra.BigOperators.Group.List.Basic
import Mathlib.Algebra.Order.Ring.Nat
import Mathlib.Data.Int.Notation

/-!
# Parameters

Values that are coded per vehicle (`comm/param`): written through the diagnostic server, kept in the
journal under the parameter's block, read back before the first dispatch. What a record is stands in
its header, and what it holds is checked against the ranges of this firmware.
-/
namespace BloblyEmb.Params
open Uds (nrcRequestOutOfRange nrcIncorrectLength maxDidData)
open Uds.Application (Did)

def maxParams : ℕ := 8
def maxFields : ℕ := 2
def recordFormat : UInt8 := 3
def recordFixed : ℕ := 3
def maxValue : ℕ := maxFields * 4
def maxRecord : ℕ := recordFixed + maxFields + maxValue
def nrcGeneralProgrammingFailure : UInt8 := 0x72

def statusDefault : UInt8 := 0
def statusCoded : UInt8 := 1
def statusReverted : UInt8 := 2

/-- The journal, where it is wired. What is read is cut to a capacity, and empty when absent. -/
structure Store (σ : Type) where
  put : Option (σ → UInt16 → List UInt8 → σ × Bool)
  get : Option (σ → UInt16 → ℕ → List UInt8)

structure Field where
  width : UInt8
  signed : Bool := false
  boolean : Bool := false
  min : ℤ
  max : ℤ
  default : ℤ
deriving DecidableEq

/-- A parameter as the generator fills it in. -/
structure Config where
  did : UInt16
  id : UInt16
  version : UInt8 := 0
  fields : List Field
  applyReset : Bool := false
deriving DecidableEq

structure Param where
  config : Config
  /-- The coded value, or the default. -/
  stored : List ℤ
  /-- The journal holds a record of this schema with that value. -/
  hasStored : Bool
  live : List ℤ
  status : UInt8
  /-- What was published of the live value. -/
  cell : UInt32 × UInt32
deriving DecidableEq

/-! ## Records -/

namespace Field

def typeCode (f : Field) : UInt8 :=
  f.width ||| (if f.signed then 0x10 else 0) ||| (if f.boolean then 0x20 else 0)

/-- A field's bytes, most significant first, with the sign of a signed one. -/
def decode (f : Field) (bs : List UInt8) : ℤ :=
  let w := f.width.toNat
  let raw : ℕ := bs.foldl (fun raw b => raw * 256 + b.toNat) 0
  if f.signed ∧ raw.testBit (8 * w - 1) then (raw : ℤ) - 2 ^ (8 * w) else raw

def encode (f : Field) (v : ℤ) : List UInt8 :=
  let w := f.width.toNat
  let raw := (v % 2 ^ 64).toNat
  (List.range w).map fun k => UInt8.ofNat (raw / 256 ^ (w - 1 - k))

end Field

def decodeFields : List Field → List UInt8 → List ℤ
  | [], _ => []
  | f :: fs, bs => f.decode (bs.take f.width.toNat) :: decodeFields fs (bs.drop f.width.toNat)

def encodeFields : List Field → List ℤ → List UInt8
  | f :: fs, v :: vs => f.encode v ++ encodeFields fs vs
  | _, _ => []

namespace Config

def width (c : Config) : ℕ := (c.fields.map fun f => f.width.toNat).sum

def header (c : Config) : List UInt8 :=
  [recordFormat, c.version, UInt8.ofNat c.fields.length] ++ c.fields.map Field.typeCode

def decode (c : Config) (bs : List UInt8) : List ℤ := decodeFields c.fields bs

def encode (c : Config) (v : List ℤ) : List UInt8 := encodeFields c.fields v

def inRange (c : Config) (v : List ℤ) : Bool :=
  (c.fields.zip v).all fun x => decide (x.1.min ≤ x.2 ∧ x.2 ≤ x.1.max)

def defaults (c : Config) : List ℤ := c.fields.map (·.default)

def record (c : Config) (v : List ℤ) : List UInt8 := c.header ++ c.encode v

/-- What a record says under this schema, when it is one of it and in range. -/
def accepts (c : Config) (rec : List UInt8) : Option (List ℤ) :=
  let h := c.header.length
  if rec.length = h + c.width ∧ rec.take h = c.header ∧ c.inRange (c.decode (rec.drop h)) then
    some (c.decode (rec.drop h))
  else none

end Config

/-! ## Start -/

namespace Param

def publishLive (p : Param) : Param :=
  let word (v : ℤ) : UInt32 := UInt32.ofNat (v % 2 ^ 32).toNat
  { p with cell := (word (p.live.getD 0 0), word (p.live.getD 1 0)) }

end Param

/-- A parameter read back from the journal, which may be unreadable or not wired. -/
def Config.restore (c : Config) (mounted : Bool) (rec : Option (List UInt8)) : Param :=
  let p : Param := ⟨c, c.defaults, false, c.defaults, statusDefault, (0, 0)⟩
  if mounted = false then { p with status := statusReverted }.publishLive
  else
    match rec with
    | none | some [] => p.publishLive
    | some rec =>
      match c.accepts rec with
      | none => { p with status := statusReverted }.publishLive
      | some v =>
        { p with stored := v, hasStored := true, live := v, status := statusCoded }.publishLive

/-- The parameters of the node; `statusData` is the status identifier's record, where it has one. -/
structure Table (σ : Type) where
  params : List Param
  store : σ
  statusData : Option (List UInt8)
  wrote : ℕ

variable {σ : Type}

def Store.read (st : Store σ) (s : σ) (id : UInt16) : Option (List UInt8) :=
  st.get.map fun get => get s id (maxRecord + 1)

def restore (st : Store σ) (configs : List Config) (mounted : Bool) (s : σ) : List Param :=
  configs.map fun c => c.restore mounted (st.read s c.id)

/-! ## Writing -/

namespace Table

def fillStatus (t : Table σ) : Table σ :=
  { t with statusData := t.statusData.map fun _ => t.params.map (·.status) }

/-- The parameter coded through an identifier. -/
def find (t : Table σ) (did : UInt16) : Option Param := t.params.find? (·.config.did == did)

/-- And its new state. -/
def update (t : Table σ) (did : UInt16) (p : Param) : Table σ :=
  { t with params := t.params.replaceF fun q => if q.config.did = did then some p else none }

end Table

/-- The coded value takes effect, now or at the next start. -/
def Param.takeEffect (p : Param) : Param :=
  if p.config.applyReset ∨ p.live = p.stored then p else { p with live := p.stored }.publishLive

/-- 0x2E on a parameter's identifier: the response code, 0 for accepted. -/
def Table.write (st : Store σ) (t : Table σ) (did : UInt16) (data : List UInt8) : Table σ × UInt8 :=
  match t.find did with
  | none => (t, nrcRequestOutOfRange)
  | some p =>
    let v := p.config.decode data
    if data.length ≠ p.config.width then (t, nrcIncorrectLength)
    else if ¬p.config.inRange v then (t, nrcRequestOutOfRange)
    else if p.hasStored ∧ v = p.stored then (t.update did p.takeEffect, 0)
    else
      match st.put with
      | none => (t, nrcGeneralProgrammingFailure)
      | some put =>
        let done := put t.store p.config.id (p.config.record v)
        let t := { t with store := done.1 }
        if done.2 = false then
          -- it may have landed all the same: the next write is stored whatever it holds
          (t.update did { p with hasStored := false }, nrcGeneralProgrammingFailure)
        else
          let p := { p with stored := v, hasStored := true, status := statusCoded }
          ({ t.update did p.takeEffect with wrote := t.wrote + 1 }.fillStatus, 0)

/-! ## The server -/

def hooks (st : Store σ) : Uds.Application.Hooks (Table σ) where
  didWrite := some fun t did data => t.write st did data

/-- A parameter's identifier carries its coded value. -/
def bindRow (p : Param) (d : Did) : Did :=
  let bytes := p.config.encode p.stored
  { d with
    bound := true, len := UInt8.ofNat bytes.length, data := bytes ++ d.data.drop bytes.length }

/-- Every parameter's identifier, the first row that has it. -/
def bind (params : List Param) (dids : List Did) : List Did :=
  params.foldl (fun dids p => dids.replaceF fun d =>
    if d.id = p.config.did then some (bindRow p d) else none) dids

end BloblyEmb.Params
