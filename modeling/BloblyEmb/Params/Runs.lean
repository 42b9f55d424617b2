import BloblyEmb.Lib.Trace
import BloblyEmb.Params.Codec
import BloblyEmb.Uds.Refusals

/-!
# The four copies of a coded value

A parameter's value stands in the journal, in the table, in the server's record and in what the
application reads. They are followed here over a run of one node, from start to start: requests with
whatever sessions and levels the other services leave, the other owners of the journal, and starts
under any schema.
-/
namespace BloblyEmb.Params
open Uds.Application (Did Server Reply)

variable {σ : Type}

/-- The parameters and identifiers that a firmware may have, as the generator checks them. -/
structure Formed (configs : List Config) : Prop where
  count : configs.length ≤ maxParams
  each : ∀ c ∈ configs, c.Formed
  dids : configs.Pairwise fun c c' => c.did ≠ c'.did
  ids : configs.Pairwise fun c c' => c.id ≠ c'.id

instance (configs : List Config) : Decidable (Formed configs) :=
  decidable_of_iff (configs.length ≤ maxParams ∧ (∀ c ∈ configs, c.Formed) ∧
      (configs.Pairwise fun c c' => c.did ≠ c'.did) ∧ configs.Pairwise fun c c' => c.id ≠ c'.id)
    ⟨fun h => ⟨h.1, h.2.1, h.2.2.1, h.2.2.2⟩, fun h => ⟨h.count, h.each, h.dids, h.ids⟩⟩

inductive Event where
  /-- 0x2E. -/
  | request (req : List UInt8)
  /-- What the other services do to the server's gates. -/
  | gate (session unlocked : UInt8)
  /-- A block of another owner is written. -/
  | elsewhere (id : UInt16) (data : List UInt8)
  | restart (configs : List Config) (dids : List Did) (status mounted : Bool)

inductive Label where
  | quiet
  | answered (reply : Reply)
  | elsewhere (id : UInt16)
  | started (mounted : Bool) (configs : List Config)

abbrev World (σ : Type) := Server (Table σ)

/-- Before the first start. -/
def World.blank (s : σ) : World σ :=
  { ctx := { params := [], store := s, statusData := none, wrote := 0 } }

/-- `mount` is what a start finds in the journal, with the blocks of the firmware's parameters. -/
def step (st : Store σ) (mount : σ → List UInt16 → σ) (w : World σ) : Event → World σ × Label
  | .request req => ((w.writeDid (hooks st) req).1, .answered (w.writeDid (hooks st) req).2)
  | .gate session unlocked => ({ w with session := session, unlocked := unlocked }, .quiet)
  | .elsewhere id data =>
    if w.ctx.params.any (·.config.id == id) then (w, .quiet)
    else
      match st.put with
      | none => (w, .quiet)
      | some put =>
        ({ w with ctx := { w.ctx with store := (put w.ctx.store id data).1 } }, .elsewhere id)
  | .restart configs dids status mounted =>
    if Formed configs then
      let s := mount w.ctx.store (configs.map (·.id))
      let params := restore st configs mounted s
      let table : Table σ :=
        { params := params, store := s, statusData := if status then some [] else none, wrote := 0 }
      ({ ctx := table.fillStatus, dids := bind params dids }, .started mounted configs)
    else (w, .quiet)

abbrev Step (σ : Type) := Trace.Entry (World σ) Event Label

/-! ## What a history says of a block -/

/-- The write that a step made, with the response code. -/
def written (x : Step σ) : Option (Param × List UInt8 × UInt8) :=
  match x.event, x.label with
  | .request req, .answered r =>
    match r.calls with
    | [.writeDid did nrc] => (x.before.ctx.find did).map fun p => (p, req.drop 3, nrc)
    | _ => none
  | _, _ => none

/-- The value that each block was given last, and its schema, where nothing since leaves it open. -/
abbrev Coded := UInt16 → Option (Config × List ℤ)

def Coded.note (o : Coded) (x : Step σ) : Coded :=
  match x.label with
  | .answered _ =>
    match written x with
    | some (p, data, nrc) =>
      if nrc = 0 then Function.update o p.config.id (some (p.config, p.config.decode data))
      else if nrc = nrcGeneralProgrammingFailure then Function.update o p.config.id none
      else o
    | none => o
  | .elsewhere id => Function.update o id none
  | .started _ configs => fun id => if id ∈ configs.map (·.id) then o id else none
  | .quiet => o

def coded (hist : List (Step σ)) : Coded := hist.foldl Coded.note fun _ => none

/-- The blocks whose last put was refused, in this run of the firmware. -/
def Refused.note (o : UInt16 → Bool) (x : Step σ) : UInt16 → Bool :=
  match x.label with
  | .answered _ =>
    match written x with
    | some (p, _, nrc) =>
      if nrc = 0 then Function.update o p.config.id false
      else if nrc = nrcGeneralProgrammingFailure then Function.update o p.config.id true
      else o
    | none => o
  | .started _ _ => fun _ => false
  | _ => o

def refused (hist : List (Step σ)) : UInt16 → Bool := hist.foldl Refused.note fun _ => false

@[simp] theorem coded_snoc (hist : List (Step σ)) (x : Step σ) :
    coded (hist ++ [x]) = (coded hist).note x := by
  simp [coded, List.foldl_append]

@[simp] theorem refused_snoc (hist : List (Step σ)) (x : Step σ) :
    refused (hist ++ [x]) = Refused.note (refused hist) x := by
  simp [refused, List.foldl_append]

/-! ## What is claimed -/

/-- A journal that keeps what it confirmed. -/
structure Durable (st : Store σ) (mount : σ → List UInt16 → σ) : Prop where
  put_read : ∀ put ∈ st.put, ∀ s id data, data.length ≤ maxRecord → (put s id data).2 = true →
    st.read (put s id data).1 id = some data
  put_other : ∀ put ∈ st.put, ∀ s id data id', id' ≠ id →
    st.read (put s id data).1 id' = st.read s id'
  mount_read : ∀ s ids, ∀ id ∈ ids, st.read (mount s ids) id = st.read s id

example : Durable (σ := UInt16 → List UInt8)
    { put := some fun s id data => (Function.update s id data, true),
      get := some fun s id cap => (s id).take cap } (fun s _ => s) where
  put_read put hput s id data hlen _ := by
    obtain rfl := Option.some.inj hput
    simp [Store.read, List.take_of_length_le (Nat.le_succ_of_le hlen)]
  put_other put hput s id data id' hne := by
    obtain rfl := Option.some.inj hput
    simp [Store.read, Function.update_of_ne hne]
  mount_read _ _ _ _ := rfl

/-- What a tester and the application see of a parameter. -/
def Param.shown (p : Param) : Config × List ℤ × List ℤ × UInt8 × UInt32 × UInt32 :=
  (p.config, p.stored, p.live, p.status, p.cell)

/-- The bytes that 0x22 answers of a row. -/
def record (d : Did) : List UInt8 := (List.range d.len.toNat).map fun j => d.data.getD j 0

structure Consistent (st : Store σ) (mount : σ → List UInt16 → σ) (hist : List (Step σ))
    (x : Step σ) : Prop where
  /-- A start finds the value written last, under the schema it was written under. -/
  restored : Durable st mount → ∀ configs, x.label = .started true configs →
    ∀ p ∈ x.after.ctx.params, ∀ c v, coded hist p.config.id = some (c, v) →
      c.version = p.config.version → c.fields = p.config.fields →
      p.stored = v ∧ p.live = v ∧ p.status = statusCoded
  /-- And applies no other record. -/
  checked : ∀ mounted configs, x.label = .started mounted configs → ∀ p ∈ x.after.ctx.params,
    p.live = p.stored ∧ (p.stored = p.config.defaults ∨
      ∃ bs, st.read x.after.ctx.store p.config.id = some (p.config.header ++ bs) ∧
        bs.length = p.config.width ∧ p.config.inRange p.stored = true ∧
        p.stored = p.config.decode bs)
  accepted : ∀ p data, written x = some (p, data, 0) →
    ∃ p', x.after.ctx.find p.config.did = some p' ∧ p'.stored = p.config.decode data ∧
      p'.status = statusCoded ∧ (p.config.applyReset = false → p'.live = p'.stored)
  failed : ∀ r, x.label = .answered r → r.Negative →
    x.after.ctx.params.map Param.shown = x.before.ctx.params.map Param.shown ∧
      x.after.dids = x.before.dids
  recorded : ∀ p ∈ x.after.ctx.params, ∀ d, x.after.findDid p.config.did = some d →
    record d = p.config.encode p.stored
  /-- After a refused put, the next write is put whatever it holds. -/
  retried : ∀ p data nrc, written x = some (p, data, nrc) → refused hist p.config.id = true →
    data.length = p.config.width → p.config.inRange (p.config.decode data) = true →
    ∀ put ∈ st.put, x.after.ctx.store =
        (put x.before.ctx.store p.config.id (p.config.record (p.config.decode data))).1 ∧
      nrc = if (put x.before.ctx.store p.config.id
        (p.config.record (p.config.decode data))).2 then 0 else nrcGeneralProgrammingFailure

end BloblyEmb.Params
