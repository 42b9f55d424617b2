import BloblyEmb.Lib.Keyed
import BloblyEmb.Params.Runs
import Mathlib.Data.List.GetD
import Mathlib.Data.List.Pairwise

/-!
# The copies agree

What one operation does to the journal, the table and the server's record, and from it what holds in
every run.
-/
namespace BloblyEmb.Params
open Uds.Application (Did Server Reply HookCall)
open Uds (nrcRequestOutOfRange nrcIncorrectLength)

variable {σ : Type} {st : Store σ} {mount : σ → List UInt16 → σ}

/-! ## A write -/

/-- The bytes are a value of the parameter. -/
def Config.Valid (c : Config) (data : List UInt8) : Prop :=
  data.length = c.width ∧ c.inRange (c.decode data) = true

theorem Config.Valid.fits {c : Config} {data : List UInt8} (h : c.Valid data) :
    c.Fits (c.decode data) :=
  ⟨h.2, data, h.1, rfl⟩

/-- Everything that a write may do. -/
inductive Wrote (st : Store σ) (t : Table σ) (did : UInt16) (data : List UInt8) :
    Table σ → UInt8 → Prop where
  | invalid (nrc : UInt8) (h0 : nrc ≠ 0) (h72 : nrc ≠ nrcGeneralProgrammingFailure)
      (hp : ∀ p, t.find did = some p → ¬p.config.Valid data) : Wrote st t did data t nrc
  | same (p : Param) (hp : t.find did = some p) (hv : p.config.Valid data)
      (hs : p.hasStored = true) (heq : p.config.decode data = p.stored) :
      Wrote st t did data (t.update did p.takeEffect) 0
  | nowhere (hput : st.put = none) : Wrote st t did data t nrcGeneralProgrammingFailure
  | refused (p : Param) (put : σ → UInt16 → List UInt8 → σ × Bool) (hput : st.put = some put)
      (hp : t.find did = some p) (hv : p.config.Valid data)
      (hno : (put t.store p.config.id (p.config.record (p.config.decode data))).2 = false) :
      Wrote st t did data
        ({ t with store := (put t.store p.config.id (p.config.record (p.config.decode data))).1 }.update
          did { p with hasStored := false }) nrcGeneralProgrammingFailure
  | stored (p : Param) (put : σ → UInt16 → List UInt8 → σ × Bool) (hput : st.put = some put)
      (hp : t.find did = some p) (hv : p.config.Valid data)
      (hok : (put t.store p.config.id (p.config.record (p.config.decode data))).2 = true) :
      Wrote st t did data
        { ({ t with store := (put t.store p.config.id
            (p.config.record (p.config.decode data))).1 }.update did
            ({ p with stored := p.config.decode data, hasStored := true,
                      status := statusCoded } : Param).takeEffect) with
          wrote := t.wrote + 1 }.fillStatus 0

theorem wrote_write (st : Store σ) (t : Table σ) (did : UInt16) (data : List UInt8) :
    Wrote st t did data (t.write st did data).1 (t.write st did data).2 := by
  simp only [Table.write]
  cases hp : t.find did with
  | none => exact .invalid nrcRequestOutOfRange (by decide) (by decide) (by simp [hp])
  | some p =>
    dsimp only
    by_cases hlen : data.length = p.config.width
    · rw [if_neg (not_not.mpr hlen)]
      by_cases hrange : p.config.inRange (p.config.decode data) = true
      · rw [if_neg (not_not.mpr hrange)]
        have hv : p.config.Valid data := ⟨hlen, hrange⟩
        by_cases hsame : p.hasStored = true ∧ p.config.decode data = p.stored
        · rw [if_pos hsame]
          exact .same p hp hv hsame.1 hsame.2
        · rw [if_neg hsame]
          cases hput : st.put with
          | none => exact .nowhere hput
          | some put =>
            dsimp only
            cases hdone : (put t.store p.config.id (p.config.record (p.config.decode data))).2 with
            | false =>
              rw [if_pos rfl]
              exact .refused p put hput hp hv hdone
            | true =>
              rw [if_neg (by simp)]
              exact .stored p put hput hp hv hdone
      · rw [if_pos hrange]
        refine .invalid nrcRequestOutOfRange (by decide) (by decide) ?_
        intro q hq hv
        rw [hp, Option.some.injEq] at hq
        exact hrange (hq ▸ hv.2)
    · rw [if_pos hlen]
      refine .invalid nrcIncorrectLength (by decide) (by decide) ?_
      intro q hq hv
      rw [hp, Option.some.injEq] at hq
      exact hlen (hq ▸ hv.1)

/-- And what the server makes of a request. -/
inductive Served (st : Store σ) (w : World σ) (req : List UInt8) : World σ → Reply → Prop where
  | rejected (r : Reply) (hr : r.calls = []) : Served st w req w r
  | plain (d : Did) (did : UInt16) (r : Reply) (hd : w.findDid did = some d)
      (hb : d.bound = false) (hr : r.calls = []) (hpos : ¬r.Negative) :
      Served st w req (w.storeDid did (req.drop 3)) r
  | declined (did : UInt16) (r : Reply) (nrc : UInt8) (hnrc : nrc ≠ 0)
      (hw : (w.ctx.write st did (req.drop 3)).2 = nrc) (hr : r.calls = [.writeDid did nrc])
      (hneg : r.Negative) : Served st w req { w with ctx := (w.ctx.write st did (req.drop 3)).1 } r
  | coded (did : UInt16) (r : Reply) (hw : (w.ctx.write st did (req.drop 3)).2 = 0)
      (hr : r.calls = [.writeDid did 0]) (hpos : ¬r.Negative) :
      Served st w req
        ({ w with ctx := (w.ctx.write st did (req.drop 3)).1 }.storeDid did (req.drop 3)) r

theorem served_writeDid (st : Store σ) (w : World σ) (req : List UInt8) :
    Served st w req (w.writeDid (hooks st) req).1 (w.writeDid (hooks st) req).2 := by
  have hpositive : ¬(Reply.say [0x6E, req.getD 1 0, req.getD 2 0]).Negative := by
    rintro ⟨-, hb⟩
    simp [Reply.say, Reply.byte, Uds.Application.place] at hb
  simp only [Server.writeDid]
  split
  · exact .rejected _ rfl
  split
  · exact .rejected _ rfl
  rename_i d hd
  split
  · exact .rejected _ rfl
  split
  · exact .rejected _ rfl
  split
  · exact .rejected _ rfl
  split
  · simp only [hooks]
    split
    · rename_i hno
      refine .declined _ _ _ hno rfl rfl ⟨rfl, ?_⟩
      rfl
    · rename_i hok
      have hok := not_not.mp hok
      rw [hok]
      exact .coded _ _ hok rfl hpositive
  · rename_i hb
    exact .plain d _ _ hd (by simpa using hb) rfl hpositive

/-! ## The invariant -/

structure Param.Sound (p : Param) : Prop where
  length : p.stored.length = p.config.fields.length
  value : p.hasStored = true → p.status = statusCoded ∧ p.config.Fits p.stored

/-- The server's row of a parameter. -/
structure RowOk (p : Param) (d : Did) : Prop where
  bound : d.bound = true
  len : d.len.toNat = p.config.width
  data : ∃ rest, d.data = p.config.encode p.stored ++ rest

structure Inv (st : Store σ) (mount : σ → List UInt16 → σ) (w : World σ) (hist : List (Step σ)) :
    Prop where
  formed : Formed (w.ctx.params.map (·.config))
  sound : ∀ p ∈ w.ctx.params, p.Sound
  rows : ∀ p ∈ w.ctx.params, ∀ d, w.findDid p.config.did = some d → RowOk p d
  /-- What the table takes for stored, the journal has. -/
  durable : Durable st mount → ∀ p ∈ w.ctx.params, p.hasStored = true →
    st.read w.ctx.store p.config.id = some (p.config.record p.stored)
  coded : Durable st mount → ∀ id c v, coded hist id = some (c, v) →
    c.Formed ∧ c.Fits v ∧ st.read w.ctx.store id = some (c.record v)
  refused : st.put ≠ none → ∀ p ∈ w.ctx.params, refused hist p.config.id = true →
    p.hasStored = false

@[simp] theorem config_takeEffect (p : Param) : p.takeEffect.config = p.config := by
  unfold Param.takeEffect
  split <;> rfl
@[simp] theorem stored_takeEffect (p : Param) : p.takeEffect.stored = p.stored := by
  unfold Param.takeEffect
  split <;> rfl
@[simp] theorem hasStored_takeEffect (p : Param) : p.takeEffect.hasStored = p.hasStored := by
  unfold Param.takeEffect
  split <;> rfl
@[simp] theorem status_takeEffect (p : Param) : p.takeEffect.status = p.status := by
  unfold Param.takeEffect
  split <;> rfl

theorem live_takeEffect {p : Param} (h : p.config.applyReset = false) :
    p.takeEffect.live = p.takeEffect.stored := by
  unfold Param.takeEffect
  by_cases hlive : p.live = p.stored
  · simp [hlive]
  · simp [h, hlive, Param.publishLive]

/-! ### The table -/

section Update

variable {t : Table σ} {did : UInt16} {p p' q : Param}

theorem Formed.pairwise (h : Formed (t.params.map (·.config))) :
    t.params.Pairwise fun a b => a.config.did ≠ b.config.did := by
  simpa [List.pairwise_map] using h.dids

/-- Two parameters with two identifiers have two blocks. -/
theorem Formed.block_ne (h : Formed (t.params.map (·.config))) (hp : p ∈ t.params)
    (hq : q ∈ t.params) (hne : q.config.did ≠ p.config.did) : q.config.id ≠ p.config.id := by
  have hids : t.params.Pairwise fun a b => a.config.id ≠ b.config.id := by
    simpa [List.pairwise_map] using h.ids
  have hsymm : Std.Symm fun a b : Param => a.config.id ≠ b.config.id := ⟨fun _ _ hab => hab.symm⟩
  refine hids.forall hq hp ?_
  rintro rfl
  exact hne rfl

theorem mem_update (h : Formed (t.params.map (·.config)))
    (hq : q ∈ (t.update did p').params) : q = p' ∨ q ∈ t.params ∧ q.config.did ≠ did := by
  rcases mem_changeKey (f := fun a : Param => a.config.did) (g := fun _ => p') h.pairwise hq with
    ⟨b, -, -, rfl⟩ | hrest
  · exact .inl rfl
  · exact .inr hrest

theorem map_update {β : Type*} {f : Param → β} (hp : t.find did = some p) (hf : f p' = f p) :
    (t.update did p').params.map f = t.params.map f := by
  refine map_changeKey (f := fun a : Param => a.config.did) (g := fun _ => p') ?_
  intro a ha
  obtain rfl : p = a := Option.some.inj (hp.symm.trans ha)
  exact hf

theorem find_update (hp : t.find did = some p) (hc : p'.config = p.config) :
    (t.update did p').find did = some p' := by
  have hdid := (find_key_spec (f := fun a : Param => a.config.did) hp).2
  have hfind := find_changeKey (f := fun a : Param => a.config.did) (k := did)
    (g := fun _ => p') (fun _ _ => by rw [hc]; exact hdid) t.params
  have hp' : t.params.find? (fun a => a.config.did == did) = some p := hp
  rw [hp'] at hfind
  exact hfind

end Update

/-! ### The server's rows -/

theorem findDid_store_ne {w : World σ} {did k : UInt16} (bytes : List UInt8) (h : k ≠ did) :
    (w.storeDid did bytes).findDid k = w.findDid k :=
  find_changeKey_ne (f := fun d : Did => d.id)
    (g := fun d => { d with data := bytes ++ d.data.drop bytes.length }) (fun _ h => h) h w.dids

theorem findDid_store (w : World σ) (did : UInt16) (bytes : List UInt8) :
    (w.storeDid did bytes).findDid did =
      (w.findDid did).map fun d => { d with data := bytes ++ d.data.drop bytes.length } :=
  find_changeKey (f := fun d : Did => d.id)
    (g := fun d => { d with data := bytes ++ d.data.drop bytes.length }) (fun _ h => h) w.dids

theorem find_bind_ne {ps : List Param} {k : UInt16} (h : ∀ p ∈ ps, p.config.did ≠ k)
    (dids : List Did) : (bind ps dids).find? (·.id == k) = dids.find? (·.id == k) := by
  induction ps generalizing dids with
  | nil => rfl
  | cons p ps ih =>
    have hrest := ih (fun q hq => h q (by simp [hq]))
      (changeKey (·.id) p.config.did (bindRow p) dids)
    refine hrest.trans ?_
    exact find_changeKey_ne (f := fun d : Did => d.id) (g := bindRow p) (fun _ hd => hd)
      (h p (by simp)).symm dids

/-- A parameter's row carries it. -/
theorem find_bind {ps : List Param} (hps : ps.Pairwise fun a b => a.config.did ≠ b.config.did)
    {p : Param} (hp : p ∈ ps) (dids : List Did) :
    (bind ps dids).find? (·.id == p.config.did) =
      (dids.find? (·.id == p.config.did)).map (bindRow p) := by
  induction ps generalizing dids with
  | nil => simp at hp
  | cons a ps ih =>
    rw [List.pairwise_cons] at hps
    rw [List.mem_cons] at hp
    rcases hp with rfl | hp
    · have hrest := find_bind_ne (fun q hq => (hps.1 q hq).symm)
        (changeKey (·.id) p.config.did (bindRow p) dids)
      refine hrest.trans ?_
      exact find_changeKey (f := fun d : Did => d.id) (g := bindRow p) (fun _ hd => hd) dids
    · have hrest := ih hps.2 hp (changeKey (·.id) a.config.did (bindRow a) dids)
      refine hrest.trans ?_
      rw [find_changeKey_ne (f := fun d : Did => d.id) (g := bindRow a) (fun _ hd => hd)
        (hps.1 p hp).symm dids]

theorem rowOk_bind {p : Param} (hp : p.Sound) (hc : p.config.Formed) (d : Did) :
    RowOk p (bindRow p d) where
  bound := rfl
  len := by
    have hlen := Config.length_encode (c := p.config) hp.length
    have hwidth := Config.width_le hc
    have hcount := hc.count
    simp only [maxFields] at hcount
    simp only [bindRow, hlen, UInt8.toNat_ofNat']
    omega
  data := ⟨_, rfl⟩

/-- The row after an accepted write. -/
theorem rowOk_store {p p' : Param} {d : Did} (h : RowOk p d) (hc : p'.config = p.config)
    {bytes : List UInt8} (hv : p'.config.encode p'.stored = bytes) :
    RowOk p' { d with data := bytes ++ d.data.drop bytes.length } where
  bound := h.bound
  len := by rw [hc]; exact h.len
  data := ⟨_, by rw [hv]⟩

theorem RowOk.record {p : Param} {d : Did} (h : RowOk p d) (hp : p.Sound) :
    record d = p.config.encode p.stored := by
  obtain ⟨rest, hdata⟩ := h.data
  have hlen := Config.length_encode (c := p.config) hp.length
  apply List.ext_getElem
  · simp [Params.record, h.len, hlen]
  · intro i hi hi'
    simp only [Params.record, List.getElem_map, List.getElem_range, hdata]
    rw [List.getD_append _ _ _ _ hi', List.getD_eq_getElem _ _ hi']

/-! ## One step -/

section Notes

variable {x : Step σ} {req : List UInt8} {r : Reply}

theorem written_none (hevent : x.event = .request req) (hlabel : x.label = .answered r)
    (hr : r.calls = []) : written x = none := by
  simp [written, hevent, hlabel, hr]

theorem written_some (hevent : x.event = .request req) (hlabel : x.label = .answered r)
    {did : UInt16} {nrc : UInt8} (hr : r.calls = [.writeDid did nrc]) :
    written x = (x.before.ctx.find did).map fun p => (p, req.drop 3, nrc) := by
  simp [written, hevent, hlabel, hr]

/-- A request that wrote nothing changes no note. -/
theorem note_none (hlabel : x.label = .answered r) (hw : written x = none) (o : Coded)
    (o' : UInt16 → Bool) : o.note x = o ∧ Refused.note o' x = o' := by
  simp [Coded.note, Refused.note, hlabel, hw]

theorem note_some (hlabel : x.label = .answered r) {p : Param} {data : List UInt8} {nrc : UInt8}
    (hw : written x = some (p, data, nrc)) (o : Coded) (o' : UInt16 → Bool) :
    (nrc = 0 → o.note x = Function.update o p.config.id (some (p.config, p.config.decode data)) ∧
        Refused.note o' x = Function.update o' p.config.id false) ∧
      (nrc = nrcGeneralProgrammingFailure → o.note x = Function.update o p.config.id none ∧
        Refused.note o' x = Function.update o' p.config.id true) ∧
      (nrc ≠ 0 → nrc ≠ nrcGeneralProgrammingFailure → o.note x = o ∧ Refused.note o' x = o') := by
  refine ⟨?_, ?_, ?_⟩
  · rintro rfl
    simp [Coded.note, Refused.note, hlabel, hw]
  · rintro rfl
    have hne : nrcGeneralProgrammingFailure ≠ 0 := by decide
    simp [Coded.note, Refused.note, hlabel, hw, hne]
  · intro h0 h72
    simp [Coded.note, Refused.note, hlabel, hw, h0, h72]

end Notes

section Steps

variable {w w' : World σ} {hist : List (Step σ)} {x : Step σ}

/-- A step that leaves the table and its rows, and the notes. -/
theorem inv_keep (h : Inv st mount w hist) (hctx : w'.ctx = w.ctx) (hdids : w'.dids = w.dids)
    (hcoded : (coded hist).note x = coded hist)
    (hrefused : Refused.note (refused hist) x = refused hist) :
    Inv st mount w' (hist ++ [x]) := by
  refine ⟨hctx ▸ h.formed, hctx ▸ h.sound, ?_, ?_, ?_, ?_⟩
  · intro p hp d hd
    rw [hctx] at hp
    simp only [Server.findDid, hdids] at hd
    exact h.rows p hp d hd
  · rw [hctx]
    exact h.durable
  · rw [coded_snoc, hcoded, hctx]
    exact h.coded
  · rw [refused_snoc, hrefused, hctx]
    exact h.refused

/-- What a put for one parameter leaves of the others' blocks. -/
theorem read_other (hd : Durable st mount) {put : σ → UInt16 → List UInt8 → σ × Bool}
    (hput : st.put = some put) (s : σ) {id id' : UInt16} (bytes : List UInt8) (hne : id' ≠ id) :
    st.read (put s id bytes).1 id' = st.read s id' :=
  hd.put_other put hput s id bytes id' hne

/-- A put that the journal refused: what its block holds is open. -/
theorem inv_refused (h : Inv st mount w hist) {did : UInt16} {p : Param} {bytes : List UInt8}
    {put : σ → UInt16 → List UInt8 → σ × Bool} (hput : st.put = some put)
    (hp : w.ctx.find did = some p) (hdids : w'.dids = w.dids)
    (hctx : w'.ctx = { w.ctx with store := (put w.ctx.store p.config.id bytes).1 }.update did
      { p with hasStored := false })
    (hcoded : (coded hist).note x = Function.update (coded hist) p.config.id none)
    (hrefused : Refused.note (refused hist) x = Function.update (refused hist) p.config.id true) :
    Inv st mount w' (hist ++ [x]) := by
  obtain ⟨hmem, hdid⟩ := find_key_spec (f := fun a : Param => a.config.did) hp
  have hconfigs : w'.ctx.params.map (·.config) = w.ctx.params.map (·.config) := by
    rw [hctx]
    exact map_update (t := { w.ctx with store := (put w.ctx.store p.config.id bytes).1 }) hp rfl
  have hsplit : ∀ q ∈ w'.ctx.params, q = { p with hasStored := false } ∨
      q ∈ w.ctx.params ∧ q.config.did ≠ did := by
    intro q hq
    rw [hctx] at hq
    exact mem_update (t := { w.ctx with store := (put w.ctx.store p.config.id bytes).1 }) h.formed hq
  have hother : ∀ q ∈ w.ctx.params, q.config.did ≠ did → q.config.id ≠ p.config.id := by
    intro q hq hne
    exact h.formed.block_ne hmem hq (by rw [hdid]; exact hne)
  have hstore : w'.ctx.store = (put w.ctx.store p.config.id bytes).1 := by rw [hctx]; rfl
  refine ⟨hconfigs ▸ h.formed, ?_, ?_, ?_, ?_, ?_⟩
  · intro q hq
    rcases hsplit q hq with rfl | ⟨hq, -⟩
    · exact ⟨(h.sound p hmem).length, nofun⟩
    · exact h.sound q hq
  · intro q hq d hd
    simp only [Server.findDid, hdids] at hd
    rcases hsplit q hq with rfl | ⟨hq, -⟩
    · obtain ⟨hbound, hlen, hdata⟩ := h.rows p hmem d hd
      exact ⟨hbound, hlen, hdata⟩
    · exact h.rows q hq d hd
  · intro hd q hq hs
    rcases hsplit q hq with rfl | ⟨hq, hne⟩
    · simp at hs
    · rw [hstore, read_other hd hput _ _ (hother q hq hne)]
      exact h.durable hd q hq hs
  · intro hd id c v hc
    rw [coded_snoc, hcoded] at hc
    by_cases hid : id = p.config.id
    · simp [hid] at hc
    · rw [Function.update_of_ne hid] at hc
      rw [hstore, read_other hd hput _ _ hid]
      exact h.coded hd id c v hc
  · intro hne q hq hr
    rcases hsplit q hq with rfl | ⟨hq, hdid'⟩
    · rfl
    · rw [refused_snoc, hrefused, Function.update_of_ne (hother q hq hdid')] at hr
      exact h.refused hne q hq hr

/-- A write that was accepted: the parameter, its row and its block hold the value. -/
theorem inv_accepted (h : Inv st mount w hist) (p' : Param) {did : UInt16} {p : Param}
    {data : List UInt8}
    (hp : w.ctx.find did = some p) (hv : p.config.Valid data) (hconfig : p'.config = p.config)
    (hstored : p'.stored = p.config.decode data) (hstatus : p'.status = statusCoded)
    (hparams : w'.ctx.params = (w.ctx.update did p').params)
    (hdids : w'.dids = (w.storeDid did data).dids)
    (hread : Durable st mount → st.read w'.ctx.store p.config.id =
      some (p.config.record (p.config.decode data)))
    (hothers : Durable st mount → ∀ id, id ≠ p.config.id →
      st.read w'.ctx.store id = st.read w.ctx.store id)
    (hcoded : (coded hist).note x =
      Function.update (coded hist) p.config.id (some (p.config, p.config.decode data)))
    (hrefused : Refused.note (refused hist) x = Function.update (refused hist) p.config.id false) :
    Inv st mount w' (hist ++ [x]) := by
  obtain ⟨hmem, hdid⟩ := find_key_spec (f := fun a : Param => a.config.did) hp
  have hformed : p.config.Formed := h.formed.each _ (List.mem_map_of_mem hmem)
  have hconfigs : w'.ctx.params.map (·.config) = w.ctx.params.map (·.config) := by
    rw [hparams]
    exact map_update hp hconfig
  have hsplit : ∀ q ∈ w'.ctx.params, q = p' ∨ q ∈ w.ctx.params ∧ q.config.did ≠ did := by
    intro q hq
    rw [hparams] at hq
    exact mem_update h.formed hq
  have hother : ∀ q ∈ w.ctx.params, q.config.did ≠ did → q.config.id ≠ p.config.id := by
    intro q hq hne
    exact h.formed.block_ne hmem hq (by rw [hdid]; exact hne)
  have hfind : ∀ k, w'.findDid k = (w.storeDid did data).findDid k := by
    intro k
    simp only [Server.findDid, hdids]
  refine ⟨hconfigs ▸ h.formed, ?_, ?_, ?_, ?_, ?_⟩
  · intro q hq
    rcases hsplit q hq with rfl | ⟨hq, -⟩
    · refine ⟨?_, fun _ => ⟨hstatus, ?_⟩⟩
      · rw [hstored, hconfig]
        exact Config.length_decode ..
      · rw [hstored, hconfig]
        exact hv.fits
    · exact h.sound q hq
  · intro q hq d hd
    rw [hfind] at hd
    rcases hsplit q hq with rfl | ⟨hq, hne⟩
    · rw [hconfig, hdid, findDid_store, Option.map_eq_some_iff] at hd
      obtain ⟨d₀, hd₀, rfl⟩ := hd
      have hrow := h.rows p hmem d₀ (by rw [hdid]; exact hd₀)
      refine rowOk_store hrow hconfig ?_
      rw [hstored, hconfig]
      exact Config.encode_decode hformed hv.1
    · rw [findDid_store_ne data hne] at hd
      exact h.rows q hq d hd
  · intro hd q hq hs
    rcases hsplit q hq with rfl | ⟨hq, hne⟩
    · rw [hconfig, hstored]
      exact hread hd
    · rw [hothers hd _ (hother q hq hne)]
      exact h.durable hd q hq hs
  · intro hd id c v hc
    rw [coded_snoc, hcoded] at hc
    by_cases hid : id = p.config.id
    · subst hid
      rw [Function.update_self, Option.some.injEq, Prod.mk.injEq] at hc
      obtain ⟨rfl, rfl⟩ := hc
      exact ⟨hformed, hv.fits, hread hd⟩
    · rw [Function.update_of_ne hid] at hc
      rw [hothers hd _ hid]
      exact h.coded hd id c v hc
  · intro hne q hq hr
    rw [refused_snoc, hrefused] at hr
    rcases hsplit q hq with rfl | ⟨hq, hdid'⟩
    · rw [hconfig, Function.update_self] at hr
      simp at hr
    · rw [Function.update_of_ne (hother q hq hdid')] at hr
      exact h.refused hne q hq hr

/-- One request, whatever the server makes of it. -/
theorem inv_request (h : Inv st mount w hist) {req : List UInt8} {r : Reply}
    (hbefore : x.before = w) (hevent : x.event = .request req) (hlabel : x.label = .answered r)
    (hs : Served st w req w' r) : Inv st mount w' (hist ++ [x]) := by
  cases hs with
  | rejected r hr =>
    obtain ⟨hc, hrf⟩ := note_none hlabel (written_none hevent hlabel hr) (coded hist) (refused hist)
    exact inv_keep h rfl rfl hc hrf
  | plain d did r hd hb hr hpos =>
    obtain ⟨hc, hrf⟩ := note_none hlabel (written_none hevent hlabel hr) (coded hist) (refused hist)
    have hk : Inv st mount w (hist ++ [x]) := inv_keep h rfl rfl hc hrf
    refine ⟨hk.formed, hk.sound, ?_, hk.durable, hk.coded, hk.refused⟩
    -- the rows of the parameters are bound, so it is another row
    intro p hp d' hd'
    by_cases hdid : p.config.did = did
    · rw [hdid] at hd'
      have hrow := h.rows p hp d (by rw [hdid]; exact hd)
      have hbound := hrow.bound
      simp [hb] at hbound
    · rw [findDid_store_ne _ hdid] at hd'
      exact h.rows p hp d' hd'
  | declined did r nrc hnrc hw hr hneg =>
    have hwritten := written_some hevent hlabel hr
    rw [hbefore] at hwritten
    have hwrote := wrote_write st w.ctx did (req.drop 3)
    rw [hw] at hwrote
    generalize (w.ctx.write st did (req.drop 3)).1 = t' at hwrote
    cases hwrote with
    | invalid _ h0 h72 hp =>
      cases hfind : w.ctx.find did with
      | none =>
        rw [hfind] at hwritten
        obtain ⟨hc, hrf⟩ := note_none hlabel hwritten (coded hist) (refused hist)
        exact inv_keep h rfl rfl hc hrf
      | some p =>
        rw [hfind] at hwritten
        obtain ⟨hc, hrf⟩ := (note_some hlabel hwritten (coded hist) (refused hist)).2.2 h0 h72
        exact inv_keep h rfl rfl hc hrf
    | same p hp hv hs heq => exact absurd rfl hnrc
    | nowhere hput =>
      cases hfind : w.ctx.find did with
      | none =>
        rw [hfind] at hwritten
        obtain ⟨hc, hrf⟩ := note_none hlabel hwritten (coded hist) (refused hist)
        exact inv_keep h rfl rfl hc hrf
      | some p =>
        rw [hfind] at hwritten
        obtain ⟨hc, -⟩ := (note_some hlabel hwritten (coded hist) (refused hist)).2.1 rfl
        refine ⟨h.formed, h.sound, h.rows, h.durable, ?_, fun hne => absurd hput hne⟩
        intro hd id c v hcoded
        rw [coded_snoc, hc] at hcoded
        by_cases hid : id = p.config.id
        · simp [hid] at hcoded
        · rw [Function.update_of_ne hid] at hcoded
          exact h.coded hd id c v hcoded
    | refused p put hput hp hv hno =>
      rw [hp] at hwritten
      obtain ⟨hc, hrf⟩ := (note_some hlabel hwritten (coded hist) (refused hist)).2.1 rfl
      exact inv_refused h hput hp rfl rfl hc hrf
    | stored p put hput hp hv hok => exact absurd rfl hnrc
  | coded did r hw hr hpos =>
    have hwritten := written_some hevent hlabel hr
    rw [hbefore] at hwritten
    have hwrote := wrote_write st w.ctx did (req.drop 3)
    rw [hw] at hwrote
    generalize (w.ctx.write st did (req.drop 3)).1 = t' at hwrote
    generalize hz : (0 : UInt8) = nrc at hwrote
    cases hwrote with
    | invalid _ h0 h72 hp => exact absurd hz.symm h0
    | same p hp hv hs heq =>
      rw [hp] at hwritten
      obtain ⟨hc, hrf⟩ := (note_some hlabel hwritten (coded hist) (refused hist)).1 rfl
      obtain ⟨hmem, -⟩ := find_key_spec (f := fun a : Param => a.config.did) hp
      refine inv_accepted h p.takeEffect hp hv (by simp) (by simp [heq]) ?_ rfl rfl ?_
        (fun _ _ _ => rfl) hc hrf
      · simp [((h.sound p hmem).value hs).1]
      · intro hd
        rw [heq]
        exact h.durable hd p hmem hs
    | nowhere hput => exact absurd hz (by decide)
    | refused p put hput hp hv hno => exact absurd hz (by decide)
    | stored p put hput hp hv hok =>
      rw [hp] at hwritten
      obtain ⟨hc, hrf⟩ := (note_some hlabel hwritten (coded hist) (refused hist)).1 rfl
      obtain ⟨hmem, -⟩ := find_key_spec (f := fun a : Param => a.config.did) hp
      have hformed : p.config.Formed := h.formed.each _ (List.mem_map_of_mem hmem)
      refine inv_accepted h ({ p with
        stored := p.config.decode (req.drop 3), hasStored := true,
        status := statusCoded } : Param).takeEffect hp hv (by simp) (by simp) (by simp) rfl rfl
        ?_ ?_ hc hrf
      · intro hd
        exact hd.put_read put hput _ _ _ (hv.fits.length_record hformed).2 hok
      · intro hd id hid
        exact read_other hd hput _ _ hid

end Steps

/-! ### A start -/

theorem restore_spec (c : Config) (mounted : Bool) (rec : Option (List UInt8)) :
    (c.restore mounted rec).config = c ∧
      (c.restore mounted rec).live = (c.restore mounted rec).stored ∧
      ((c.restore mounted rec).hasStored = false ∧ (c.restore mounted rec).stored = c.defaults ∧
          (mounted = true → ∀ bytes, rec = some bytes → c.accepts bytes = none ∨ bytes = []) ∨
        (c.restore mounted rec).hasStored = true ∧ (c.restore mounted rec).status = statusCoded ∧
          ∃ bytes, rec = some bytes ∧ c.accepts bytes = some (c.restore mounted rec).stored) := by
  simp only [Config.restore]
  cases mounted with
  | false => exact ⟨rfl, rfl, .inl ⟨rfl, rfl, nofun⟩⟩
  | true =>
    match rec with
    | none => exact ⟨rfl, rfl, .inl ⟨rfl, rfl, nofun⟩⟩
    | some [] => exact ⟨rfl, rfl, .inl ⟨rfl, rfl, by simp⟩⟩
    | some (b :: bs) =>
      cases ha : c.accepts (b :: bs) with
      | none =>
        simp only [Bool.true_eq_false, if_false, ha]
        exact ⟨rfl, rfl, .inl ⟨rfl, rfl, by simp [ha]⟩⟩
      | some v =>
        simp only [Bool.true_eq_false, if_false, ha]
        exact ⟨rfl, rfl, .inr ⟨rfl, rfl, _, rfl, ha⟩⟩

/-- A parameter that a start applied has its record. -/
theorem restore_fits {c : Config} {bytes : List UInt8} {v : List ℤ} (hc : c.Formed)
    (h : c.accepts bytes = some v) : c.Fits v ∧ bytes = c.record v := by
  obtain ⟨heq, hlen, hrange, rfl⟩ := Config.accepts_spec h
  refine ⟨⟨hrange, _, hlen, rfl⟩, ?_⟩
  rw [Config.record, Config.encode_decode hc hlen]
  exact heq

theorem map_restore (configs : List Config) (mounted : Bool) (s : σ) :
    (restore st configs mounted s).map (·.config) = configs := by
  simp only [restore, List.map_map]
  exact List.map_id'' (fun c => (restore_spec c mounted _).1) configs

theorem inv_restart {w : World σ} {hist : List (Step σ)} {x : Step σ} (h : Inv st mount w hist)
    {configs : List Config} {dids : List Did} {status mounted : Bool} (hf : Formed configs)
    (hx : x = Trace.entry (step st mount) w (.restart configs dids status mounted)) :
    Inv st mount x.after (hist ++ [x]) := by
  have hlabel : x.label = .started mounted configs := by simp [hx, step, hf]
  have hparams : x.after.ctx.params =
      restore st configs mounted (mount w.ctx.store (configs.map (·.id))) := by
    simp [hx, step, hf, Table.fillStatus]
  have hstore : x.after.ctx.store = mount w.ctx.store (configs.map (·.id)) := by
    simp [hx, step, hf, Table.fillStatus]
  have hdids : x.after.dids = bind x.after.ctx.params dids := by
    simp [hx, step, hf, Table.fillStatus]
  have hconfigs : x.after.ctx.params.map (·.config) = configs := by
    rw [hparams]
    exact map_restore configs mounted _
  have hmem : ∀ p ∈ x.after.ctx.params, ∃ c ∈ configs,
      c.restore mounted (st.read x.after.ctx.store c.id) = p := by
    intro p hp
    rw [hparams, restore, List.mem_map] at hp
    rw [hstore]
    exact hp
  have hsound : ∀ p ∈ x.after.ctx.params, p.Sound ∧ (p.hasStored = true →
      st.read x.after.ctx.store p.config.id = some (p.config.record p.stored)) := by
    intro p hp
    obtain ⟨c, hc, rfl⟩ := hmem p hp
    obtain ⟨hconfig, -, ⟨hno, hdef, -⟩ | ⟨hs, hstatus, bytes, hbytes, haccepts⟩⟩ :=
      restore_spec c mounted (st.read x.after.ctx.store c.id)
    · refine ⟨⟨?_, by simp [hno]⟩, by simp [hno]⟩
      rw [hdef, hconfig]
      simp [Config.defaults]
    · obtain ⟨hfits, hrec⟩ := restore_fits (hf.each c hc) haccepts
      refine ⟨⟨?_, ?_⟩, ?_⟩
      · rw [hconfig]
        exact hfits.length
      · intro _
        rw [hconfig]
        exact ⟨hstatus, hfits⟩
      · intro _
        rw [hconfig]
        exact hbytes.trans (congrArg some hrec)
  have hformed : Formed (x.after.ctx.params.map (·.config)) := by rw [hconfigs]; exact hf
  refine ⟨hformed, fun p hp => (hsound p hp).1, ?_, fun _ p hp => (hsound p hp).2, ?_, ?_⟩
  · intro p hp d hd
    simp only [Server.findDid, hdids] at hd
    rw [find_bind hformed.pairwise hp, Option.map_eq_some_iff] at hd
    obtain ⟨d₀, -, rfl⟩ := hd
    exact rowOk_bind (hsound p hp).1 (hformed.each _ (List.mem_map_of_mem hp)) d₀
  · intro hd id c v hc
    simp only [coded_snoc, Coded.note, hlabel] at hc
    by_cases hid : id ∈ configs.map (·.id)
    · rw [if_pos hid] at hc
      rw [hstore, hd.mount_read _ _ id hid]
      exact h.coded hd id c v hc
    · simp [hid] at hc
  · intro _ p hp hr
    simp [Refused.note, hlabel] at hr

theorem inv_step {w : World σ} {hist : List (Step σ)} (h : Inv st mount w hist) (e : Event) :
    Inv st mount (step st mount w e).1 (hist ++ [Trace.entry (step st mount) w e]) := by
  cases e with
  | request req => exact inv_request h rfl rfl rfl (served_writeDid st w req)
  | gate session unlocked =>
    exact inv_keep (x := Trace.entry (step st mount) w (.gate session unlocked)) h rfl rfl rfl rfl
  | elsewhere id data =>
    by_cases hown : w.ctx.params.any (·.config.id == id) = true
    · refine inv_keep h ?_ ?_ ?_ ?_ <;> simp [step, hown, Coded.note, Refused.note, Trace.entry]
    · cases hput : st.put with
      | none =>
        refine inv_keep h ?_ ?_ ?_ ?_ <;>
          simp [step, hown, hput, Coded.note, Refused.note, Trace.entry]
      | some put =>
        have hne : ∀ p ∈ w.ctx.params, p.config.id ≠ id := by
          intro p hp heq
          exact hown (List.any_eq_true.mpr ⟨p, hp, by simp [heq]⟩)
        have hs : step st mount w (.elsewhere id data) =
            ({ w with ctx := { w.ctx with store := (put w.ctx.store id data).1 } },
              .elsewhere id) := by
          simp [step, hown, hput]
        simp only [Trace.entry, hs]
        refine ⟨h.formed, h.sound, h.rows, ?_, ?_, ?_⟩
        · intro hd p hp hstored
          rw [read_other hd hput _ _ (hne p hp)]
          exact h.durable hd p hp hstored
        · intro hd id' c v hc
          simp only [coded_snoc, Coded.note] at hc
          by_cases hid : id' = id
          · simp [hid] at hc
          · rw [Function.update_of_ne hid] at hc
            rw [read_other hd hput _ _ hid]
            exact h.coded hd id' c v hc
        · intro hno p hp hr
          simp only [refused_snoc, Refused.note] at hr
          exact h.refused hno p hp hr
  | restart configs dids status mounted =>
    by_cases hf : Formed configs
    · exact inv_restart h hf rfl
    · refine inv_keep h ?_ ?_ ?_ ?_ <;> simp [step, hf, Coded.note, Refused.note, Trace.entry]

/-! ## What a step shows -/

section Shown

variable {w w' : World σ} {hist : List (Step σ)} {x : Step σ} {req : List UInt8} {r : Reply}

/-- A request that is answered negatively shows in nothing. -/
theorem failed_request (hs : Served st w req w' r) (hneg : r.Negative) :
    w'.ctx.params.map Param.shown = w.ctx.params.map Param.shown ∧ w'.dids = w.dids := by
  cases hs with
  | rejected => exact ⟨rfl, rfl⟩
  | plain _ _ _ _ _ _ hpos => exact absurd hneg hpos
  | coded _ _ _ _ hpos => exact absurd hneg hpos
  | declined did r nrc hnrc hw hr _ =>
    refine ⟨?_, rfl⟩
    have hwrote := wrote_write st w.ctx did (req.drop 3)
    rw [hw] at hwrote
    generalize (w.ctx.write st did (req.drop 3)).1 = t' at hwrote
    cases hwrote with
    | invalid => rfl
    | same => exact absurd rfl hnrc
    | nowhere => rfl
    | refused p put hput hp hv hno =>
      exact map_update (t := { w.ctx with store :=
        (put w.ctx.store p.config.id (p.config.record (p.config.decode (req.drop 3)))).1 }) hp rfl
    | stored => exact absurd rfl hnrc

/-- The write that a request made, as the table sees it. -/
theorem written_wrote (hbefore : x.before = w) (hevent : x.event = .request req)
    (hlabel : x.label = .answered r) (hs : Served st w req w' r) {p : Param} {data : List UInt8}
    {nrc : UInt8} (hw : written x = some (p, data, nrc)) :
    w.ctx.find p.config.did = some p ∧ Wrote st w.ctx p.config.did data w'.ctx nrc := by
  have hfound : ∀ did nrc', r.calls = [.writeDid did nrc'] →
      w.ctx.find did = some p ∧ p.config.did = did ∧ data = req.drop 3 ∧ nrc = nrc' := by
    intro did nrc' hr
    rw [written_some hevent hlabel hr, hbefore, Option.map_eq_some_iff] at hw
    obtain ⟨q, hq, heq⟩ := hw
    simp only [Prod.mk.injEq] at heq
    obtain ⟨rfl, rfl, rfl⟩ := heq
    exact ⟨hq, (find_key_spec (f := fun a : Param => a.config.did) hq).2, rfl, rfl⟩
  cases hs with
  | rejected _ hr => simp [written_none hevent hlabel hr] at hw
  | plain _ _ _ _ _ hr => simp [written_none hevent hlabel hr] at hw
  | declined did _ nrc' _ hwr hr _ =>
    obtain ⟨hfind, rfl, rfl, rfl⟩ := hfound did nrc' hr
    have hwrote := wrote_write st w.ctx p.config.did (req.drop 3)
    rw [hwr] at hwrote
    exact ⟨hfind, hwrote⟩
  | coded did _ hwr hr _ =>
    obtain ⟨hfind, rfl, rfl, rfl⟩ := hfound did 0 hr
    have hwrote := wrote_write st w.ctx p.config.did (req.drop 3)
    rw [hwr] at hwrote
    exact ⟨hfind, hwrote⟩

/-- An accepted write shows its value, and is in effect unless it waits for the next start. -/
theorem accepted_wrote {t t' : Table σ} {p : Param} {data : List UInt8}
    (hfind : t.find p.config.did = some p) (hsound : p.Sound)
    (hw : Wrote st t p.config.did data t' 0) :
    ∃ p', t'.find p.config.did = some p' ∧ p'.stored = p.config.decode data ∧
      p'.status = statusCoded ∧ (p.config.applyReset = false → p'.live = p'.stored) := by
  generalize hz : (0 : UInt8) = nrc at hw
  cases hw with
  | invalid _ h0 => exact absurd hz.symm h0
  | same q hq hv hs heq =>
    obtain rfl : p = q := Option.some.inj (hfind.symm.trans hq)
    refine ⟨_, find_update hfind (by simp), by simp [heq], by simp [(hsound.value hs).1], ?_⟩
    exact live_takeEffect
  | nowhere => exact absurd hz (by decide)
  | refused => exact absurd hz (by decide)
  | stored q put hput hq hv hok =>
    obtain rfl : p = q := Option.some.inj (hfind.symm.trans hq)
    refine ⟨_, find_update (t := { t with store := (put t.store p.config.id
      (p.config.record (p.config.decode data))).1 }) hfind ?_, ?_, ?_, ?_⟩
    · exact config_takeEffect _
    · simp
    · simp
    · intro hreset
      exact live_takeEffect hreset

/-- Where the journal may not hold what the table has, a value is put whatever it is. -/
theorem retried_wrote {t t' : Table σ} {p : Param} {data : List UInt8} {nrc : UInt8}
    (hfind : t.find p.config.did = some p) (hno : p.hasStored = false)
    (hv : p.config.Valid data) (hw : Wrote st t p.config.did data t' nrc)
    {put : σ → UInt16 → List UInt8 → σ × Bool} (hput : st.put = some put) :
    t'.store = (put t.store p.config.id (p.config.record (p.config.decode data))).1 ∧
      nrc = if (put t.store p.config.id (p.config.record (p.config.decode data))).2 then 0
        else nrcGeneralProgrammingFailure := by
  cases hw with
  | invalid _ _ _ hp => exact absurd hv (hp p hfind)
  | same q hq _ hs =>
    obtain rfl : p = q := Option.some.inj (hfind.symm.trans hq)
    simp [hno] at hs
  | nowhere hnone => simp [hnone] at hput
  | refused q put' hput' hq _ hrefused =>
    obtain rfl : p = q := Option.some.inj (hfind.symm.trans hq)
    obtain rfl : put' = put := Option.some.inj (hput'.symm.trans hput)
    rw [hrefused]
    exact ⟨rfl, rfl⟩
  | stored q put' hput' hq _ hok =>
    obtain rfl : p = q := Option.some.inj (hfind.symm.trans hq)
    obtain rfl : put' = put := Option.some.inj (hput'.symm.trans hput)
    rw [hok]
    exact ⟨rfl, rfl⟩

/-- What a step that is a start shows. -/
theorem started_spec {e : Event} {mounted : Bool} {configs : List Config}
    (hl : (step st mount w e).2 = .started mounted configs) :
    ∀ p ∈ (step st mount w e).1.ctx.params, ∃ c ∈ configs, c.Formed ∧
      p = c.restore mounted (st.read (step st mount w e).1.ctx.store c.id) ∧
      (step st mount w e).1.ctx.store = mount w.ctx.store (configs.map (·.id)) := by
  cases e with
  | restart configs' dids status mounted' =>
    by_cases hf : Formed configs'
    · simp only [step, hf, if_true, Label.started.injEq] at hl ⊢
      obtain ⟨rfl, rfl⟩ := hl
      intro p hp
      simp only [Table.fillStatus, restore, List.mem_map] at hp
      obtain ⟨c, hc, rfl⟩ := hp
      exact ⟨c, hc, hf.each c hc, rfl, rfl⟩
    · simp [step, hf] at hl
  | elsewhere id data =>
    simp only [step] at hl
    split at hl
    · simp at hl
    · split at hl <;> simp at hl
  | _ => simp [step] at hl

end Shown

theorem consistent_step {w : World σ} {hist : List (Step σ)} (h : Inv st mount w hist) (e : Event) :
    Consistent st mount hist (Trace.entry (step st mount) w e) := by
  have hafter := inv_step h e
  have hnot : ∀ r, (step st mount w e).2 = .answered r → ∃ req, e = .request req ∧
      Served st w req (step st mount w e).1 r := by
    intro r hl
    cases e with
    | request req =>
      obtain rfl := Label.answered.inj hl
      exact ⟨req, rfl, served_writeDid st w req⟩
    | gate => simp [step] at hl
    | elsewhere id data =>
      simp only [step] at hl
      split at hl
      · simp at hl
      · split at hl <;> simp at hl
    | restart configs dids status mounted =>
      simp only [step] at hl
      split at hl <;> simp at hl
  have hwrote : ∀ p data nrc, written (Trace.entry (step st mount) w e) = some (p, data, nrc) →
      w.ctx.find p.config.did = some p ∧
        Wrote st w.ctx p.config.did data (step st mount w e).1.ctx nrc := by
    intro p data nrc hw
    cases hl : (step st mount w e).2 with
    | answered r =>
      obtain ⟨req, rfl, hs⟩ := hnot r hl
      exact written_wrote (x := Trace.entry (step st mount) w (.request req)) rfl rfl hl hs hw
    | quiet => cases e <;> simp [written, hl] at hw
    | elsewhere => cases e <;> simp [written, hl] at hw
    | started => cases e <;> simp [written, hl] at hw
  refine ⟨?_, ?_, ?_, ?_, ?_, ?_⟩
  · intro hd configs hl p hp c v hc hversion hfields
    obtain ⟨c', hc', hformed, rfl, hstore⟩ := started_spec hl p hp
    obtain ⟨hconfig, hlive, hwhat⟩ :=
      restore_spec c' true (st.read (step st mount w e).1.ctx.store c'.id)
    rw [hconfig] at hc hversion hfields
    obtain ⟨hcf, hfits, hread⟩ := h.coded hd _ _ _ hc
    have hrec : c'.record v = c.record v := by
      simp [Config.record, Config.header, Config.encode, hversion, hfields]
    have hfits' : c'.Fits v := by
      simpa [Config.Fits, Config.inRange, Config.width, Config.decode, hfields] using hfits
    have hread' : st.read (step st mount w e).1.ctx.store c'.id = some (c'.record v) := by
      rw [hstore, hd.mount_read _ _ _ (List.mem_map_of_mem hc'), hread, hrec]
    have haccepts := hfits'.accepts hformed
    rcases hwhat with ⟨-, -, hnone⟩ | ⟨-, hstatus, bytes, hbytes, haccepts'⟩
    · rcases hnone rfl _ hread' with hno | hempty
      · simp [haccepts] at hno
      · simp [Config.record, Config.header] at hempty
    · obtain rfl := Option.some.inj (hread'.symm.trans hbytes)
      have hv := Option.some.inj (haccepts'.symm.trans haccepts)
      exact ⟨hv, hlive.trans hv, hstatus⟩
  · intro mounted configs hl p hp
    obtain ⟨c, -, hformed, rfl, -⟩ := started_spec hl p hp
    obtain ⟨hconfig, hlive, ⟨-, hdef, -⟩ | ⟨-, -, bytes, hbytes, haccepts⟩⟩ :=
      restore_spec c mounted (st.read (step st mount w e).1.ctx.store c.id)
    · refine ⟨hlive, .inl ?_⟩
      rw [hdef, hconfig]
    · obtain ⟨heq, hlen, hrange, hv⟩ := Config.accepts_spec haccepts
      refine ⟨hlive, .inr ⟨bytes.drop c.header.length, ?_⟩⟩
      rw [hconfig]
      exact ⟨hbytes.trans (congrArg some heq), hlen, hrange, hv⟩
  · intro p data hw
    obtain ⟨hfind, hwr⟩ := hwrote p data 0 hw
    exact accepted_wrote hfind
      (h.sound p (find_key_spec (f := fun a : Param => a.config.did) hfind).1) hwr
  · intro r hl hneg
    obtain ⟨req, rfl, hs⟩ := hnot r hl
    exact failed_request hs hneg
  · intro p hp d hd
    exact (hafter.rows p hp d hd).record (hafter.sound p hp)
  · intro p data nrc hw hr hlen hrange put hput
    obtain ⟨hfind, hwr⟩ := hwrote p data nrc hw
    have hmem := (find_key_spec (f := fun a : Param => a.config.did) hfind).1
    have hno := h.refused (by simp [Option.mem_def.mp hput]) p hmem hr
    exact retried_wrote hfind hno ⟨hlen, hrange⟩ hwr hput

/-- In every run of a node, over every journal. -/
theorem copies_agree (st : Store σ) (mount : σ → List UInt16 → σ) (s : σ) (es : List Event) :
    Trace.Along (Consistent st mount) (Trace.history (step st mount) (World.blank s) es) := by
  have h0 : Inv st mount (World.blank s) [] := by
    refine ⟨⟨by simp [World.blank], ?_, ?_, ?_⟩, ?_, ?_, ?_, ?_, ?_⟩ <;>
      simp [World.blank, coded, refused]
  exact (Trace.run_along (I := Inv st mount) (C := fun _ _ => True) h0
    (fun es e h _ => ⟨inv_step h e, consistent_step h e⟩) es (fun _ _ _ _ => trivial)).2

end BloblyEmb.Params
