import BloblyEmb.Candb.Dbc
import BloblyEmb.Candb.Signal
import Mathlib.Data.List.Perm.Subperm
import Mathlib.Data.List.Range
import Mathlib.Data.List.Nodup

/-!
# The contract of a frame route

A gateway forwards a frame as it is, so the databases of both buses have to give its payload one meaning
(`tools/sysmodel/dbc.v`, `check_frame_route_contract`). An issue is named by what it is about: its text is
not modelled. Numbers of the type `F` are compared as the tools compare them, by value.
-/
namespace BloblyEmb.Sysmodel.Contract

open Candb.Dbc (Text SigBuilder MsgBuilder Database Order)

variable {F : Type}

/-! ## Value tables -/

/-- The raw values that a table labels. -/
def keys (values : UInt64 → Option Text) : List UInt64 :=
  ((List.range (2 ^ 64)).map UInt64.ofNat).filter fun k => (values k).isSome

theorem mem_keys {values : UInt64 → Option Text} {k : UInt64} :
    k ∈ keys values ↔ (values k).isSome = true := by
  rw [keys, List.mem_filter]
  refine ⟨fun h => h.2, fun h => ⟨List.mem_map.mpr ⟨k.toNat, ?_, UInt64.ofNat_toNat⟩, h⟩⟩
  exact List.mem_range.mpr k.toNat_lt

theorem nodup_keys (values : UInt64 → Option Text) : (keys values).Nodup := by
  refine List.Nodup.filter _ (List.Nodup.map_on (fun m hm n hn h => ?_) List.nodup_range)
  have hm' : m < 2 ^ 64 := List.mem_range.mp hm
  have hn' : n < 2 ^ 64 := List.mem_range.mp hn
  have hnat := congrArg UInt64.toNat h
  rwa [UInt64.toNat_ofNat_of_lt' hm', UInt64.toNat_ofNat_of_lt' hn'] at hnat

theorem keys_none : keys (fun _ => none) = [] := by
  rw [List.eq_nil_iff_forall_not_mem]
  intro k hk
  simpa using mem_keys.mp hk

theorem length_keys_update {values : UInt64 → Option Text} {k : UInt64} (hk : values k = none)
    (l : Text) : (keys (Function.update values k (some l))).length = (keys values).length + 1 := by
  have hnot : k ∉ keys values := fun h => by simpa [hk] using mem_keys.mp h
  have hperm : (keys (Function.update values k (some l))).Perm (k :: keys values) := by
    rw [List.perm_ext_iff_of_nodup (nodup_keys _) (List.nodup_cons.mpr ⟨hnot, nodup_keys _⟩)]
    intro j
    rw [mem_keys, List.mem_cons, mem_keys]
    by_cases hj : j = k
    · subst hj
      simp
    · simp [hj]
  rw [hperm.length_eq, List.length_cons]

/-! ## The comparison of two signals -/

theorem ite_some_eq_none {α : Type} {p : Prop} [Decidable p] {x : α} {o : Option α} :
    (if p then some x else o) = none ↔ ¬p ∧ o = none := by
  by_cases hp : p
  · simp [hp]
  · simp [hp]

inductive WireDiff where
  | startBit
  | length
  | factor
  | offset
  | range
  | signedness
  | endianness
  | unit
  | multiplexing
  | tableSize
  | tableAt (raw : UInt64)
deriving DecidableEq

section Compare

variable [DecidableEq F]

/-- The first difference on the wire. The order in which a table is gone through is left out. -/
def sigWireDiff (a b : SigBuilder F) : Option WireDiff :=
  if a.startBit ≠ b.startBit then some .startBit
  else if a.length ≠ b.length then some .length
  else if a.factor ≠ b.factor then some .factor
  else if a.offset ≠ b.offset then some .offset
  else if a.minimum ≠ b.minimum ∨ a.maximum ≠ b.maximum then some .range
  else if a.isSigned ≠ b.isSigned then some .signedness
  else if a.byteOrder ≠ b.byteOrder then some .endianness
  else if a.unit ≠ b.unit then some .unit
  else if a.isMultiplexor ≠ b.isMultiplexor ∨ a.isMultiplexed ≠ b.isMultiplexed ∨
      a.multiplexorValue ≠ b.multiplexorValue then some .multiplexing
  else if (keys a.values).length ≠ (keys b.values).length then some .tableSize
  else
    ((keys a.values).find? fun k => (b.values k).getD [] ≠ (a.values k).getD []).map .tableAt

/-- The fields other than the table are the same. -/
structure Alike (a b : SigBuilder F) : Prop where
  startBit : a.startBit = b.startBit
  length : a.length = b.length
  factor : a.factor = b.factor
  offset : a.offset = b.offset
  minimum : a.minimum = b.minimum
  maximum : a.maximum = b.maximum
  isSigned : a.isSigned = b.isSigned
  byteOrder : a.byteOrder = b.byteOrder
  unit : a.unit = b.unit
  isMultiplexor : a.isMultiplexor = b.isMultiplexor
  isMultiplexed : a.isMultiplexed = b.isMultiplexed
  multiplexorValue : a.multiplexorValue = b.multiplexorValue

/-- Two tables as they are compared: one size, and each label of the first in the second, where a value
without a label counts as one with an empty label. -/
def TablesPass (a b : SigBuilder F) : Prop :=
  (keys a.values).length = (keys b.values).length ∧
    ∀ k l, a.values k = some l → (b.values k).getD [] = l

theorem sigWireDiff_eq_none {a b : SigBuilder F} :
    sigWireDiff a b = none ↔ Alike a b ∧ TablesPass a b := by
  have hfind : ((keys a.values).find? fun k => (b.values k).getD [] ≠ (a.values k).getD []) = none ↔
      ∀ k l, a.values k = some l → (b.values k).getD [] = l := by
    rw [List.find?_eq_none]
    refine ⟨fun h k l hk => ?_, fun h k hk => ?_⟩
    · have := h k (mem_keys.mpr (by rw [hk]; rfl))
      simpa [hk] using this
    · obtain ⟨l, hl⟩ := Option.isSome_iff_exists.mp (mem_keys.mp hk)
      simp [hl, h k l hl]
  simp only [sigWireDiff, ite_some_eq_none, Option.map_eq_none_iff, hfind, not_or, not_not]
  constructor
  · rintro ⟨hstart, hlength, hfactor, hoffset, ⟨hmin, hmax⟩, hsigned, horder, hunit,
      ⟨hmuxor, hmuxed, hvalue⟩, hsize, htable⟩
    exact ⟨⟨hstart, hlength, hfactor, hoffset, hmin, hmax, hsigned, horder, hunit, hmuxor, hmuxed,
      hvalue⟩, hsize, htable⟩
  · rintro ⟨h, hsize, htable⟩
    exact ⟨h.startBit, h.length, h.factor, h.offset, ⟨h.minimum, h.maximum⟩, h.isSigned, h.byteOrder,
      h.unit, ⟨h.isMultiplexor, h.isMultiplexed, h.multiplexorValue⟩, hsize, htable⟩

omit [DecidableEq F] in
/-- Tables that pass are the same, unless the first has an empty label where the second has none. -/
theorem TablesPass.eq {a b : SigBuilder F} (h : TablesPass a b)
    (hempty : ∀ k, a.values k = some [] → b.values k ≠ none) : a.values = b.values := by
  have hkept : ∀ k l, a.values k = some l → b.values k = some l := by
    intro k l hk
    have hget := h.2 k l hk
    cases hb : b.values k with
    | none =>
      rw [hb] at hget
      subst hget
      exact absurd hb (hempty k hk)
    | some l' =>
      rw [hb] at hget
      exact congrArg some hget
  have hsub : keys a.values ⊆ keys b.values := fun k hk => by
    obtain ⟨l, hl⟩ := Option.isSome_iff_exists.mp (mem_keys.mp hk)
    exact mem_keys.mpr (by rw [hkept k l hl]; rfl)
  have hperm := ((nodup_keys a.values).subperm hsub).perm_of_length_le h.1.ge
  funext k
  cases hk : a.values k with
  | some l => exact (hkept k l hk).symm
  | none =>
    cases hb : b.values k with
    | none => rfl
    | some l =>
      have hmem := hperm.mem_iff.mpr (mem_keys.mpr (show (b.values k).isSome = true by rw [hb]; rfl))
      simpa [hk] using mem_keys.mp hmem

end Compare

/-! ## The check of a route -/

structure Bus where
  name : Text
  dbc : Text
  fd : Bool

structure Route where
  gateway : Text
  frame : Text
  fromBus : Text
  toBus : Text

/-- The buses, and what the file of a database holds. -/
structure System (F : Type) where
  buses : List Bus
  load : Text → Option (Database F)

inductive Issue where
  | noDbc (bus : Text)
  | unread (bus dbc : Text)
  | noFrame (bus frame : Text)
  | idWidth
  | malformedId
  | tooLong
  | fdBus
  | notCyclic
  | cadence
  | belowTick
  | secondWriter (sender : Text)
  | idDiffers
  | dlcDiffers
  | multiplexed (signal : Text)
  | repeated (signal : Text)
  | signalCount
  | signalDiffers (signal : Text) (diff : WireDiff)
  | noSignal (signal : Text)
deriving DecidableEq

def System.busByName (s : System F) (name : Text) : Option Bus := s.buses.find? (·.name = name)

/-- The database of a bus, or why it cannot be had. -/
def routeLoadBusDbc (s : System F) (b : Bus) : Except Issue (Database F) :=
  if b.dbc = [] then .error (.noDbc b.name)
  else
    match s.load b.dbc with
    | some db => .ok db
    | none => .error (.unread b.name b.dbc)

def routeMsgOf (db : Database F) (frame : Text) : Option (MsgBuilder F) :=
  db.messages.find? (·.name = frame)

def issueIf (p : Prop) [Decidable p] (i : Issue) : List Issue := if p then [i] else []

@[simp] theorem issueIf_eq_nil {p : Prop} [Decidable p] {i : Issue} : issueIf p i = [] ↔ ¬ p := by
  unfold issueIf
  split <;> simp [*]

/-- The first multiplexed signal of a frame. -/
def muxIssues (m : MsgBuilder F) : List Issue :=
  match m.sigs.find? fun s => s.isMultiplexor || s.isMultiplexed with
  | some s => [.multiplexed s.name]
  | none => []

instance lawfulBEq_text : LawfulBEq Text := inferInstance

/-- The names that occurred before. -/
def repeatIssues : List Text → List (SigBuilder F) → List Issue
  | _, [] => []
  | seen, s :: ss => issueIf (s.name ∈ seen) (.repeated s.name) ++ repeatIssues (s.name :: seen) ss

def cadenceIssues (sm dm : MsgBuilder F) : List Issue :=
  if sm.cycleMs = 0 ∨ dm.cycleMs = 0 then [.notCyclic]
  else if sm.cycleMs ≠ dm.cycleMs then [.cadence]
  else if sm.cycleMs < 10 then [.belowTick]
  else []

/-- The transmitter of the destination is a placeholder or the gateway. -/
def Sender (gateway sender : Text) : Prop :=
  sender = [] ∨ "Vector__".toList <+: sender ∨ sender = gateway

instance (gateway sender : Text) : Decidable (Sender gateway sender) :=
  inferInstanceAs (Decidable (_ ∨ _))

section Check

variable [DecidableEq F]

def signalIssues (dm : MsgBuilder F) (a : SigBuilder F) : List Issue :=
  match dm.sigs.find? (·.name = a.name) with
  | none => [.noSignal a.name]
  | some b =>
    match sigWireDiff a b with
    | some d => [.signalDiffers a.name d]
    | none => []

/-- The two definitions of a frame. -/
def frameIssues (src dst : Bus) (r : Route) (sm dm : MsgBuilder F) : List Issue :=
  issueIf (sm.ext ≠ dm.ext) .idWidth ++
  issueIf ((0x7ff < sm.id ∧ sm.ext = false) ∨ (0x7ff < dm.id ∧ dm.ext = false)) .malformedId ++
  issueIf (8 < sm.dlc ∨ 8 < dm.dlc) .tooLong ++
  issueIf (src.fd = true ∨ dst.fd = true) .fdBus ++
  cadenceIssues sm dm ++
  issueIf (¬ Sender r.gateway dm.sender) (.secondWriter dm.sender) ++
  issueIf (sm.id ≠ dm.id) .idDiffers ++
  issueIf (sm.dlc ≠ dm.dlc) .dlcDiffers ++
  [sm, dm].flatMap muxIssues ++
  [sm, dm].flatMap (fun m => repeatIssues [] m.sigs) ++
  issueIf (sm.sigs.length ≠ dm.sigs.length) .signalCount ++
  sm.sigs.flatMap (signalIssues dm)

def checkFrameRouteContract (s : System F) (r : Route) : List Issue :=
  match s.busByName r.fromBus, s.busByName r.toBus with
  | some src, some dst =>
    match routeLoadBusDbc s src with
    | .error i => [i]
    | .ok srcDb =>
      match routeLoadBusDbc s dst with
      | .error i => [i]
      | .ok dstDb =>
        match routeMsgOf srcDb r.frame with
        | none => [.noFrame r.fromBus r.frame]
        | some sm =>
          match routeMsgOf dstDb r.frame with
          | none => [.noFrame r.toBus r.frame]
          | some dm => frameIssues src dst r sm dm
  | _, _ => []

end Check

/-! ## What a payload means -/

def rawValue (s : SigBuilder F) (data : List UInt8) : Option UInt64 :=
  if s.startBit < 0 ∧ 0 < s.length then none
  else
    some (Candb.Signal.rawValue
      { startBit := s.startBit.toNat
        length := s.length.toNat
        byteOrder := if s.byteOrder = .littleEndian then .littleEndian else .bigEndian } data)

/-- A signal as it is read from a payload; where its raw value has no label, that is not an empty one. -/
structure Reading (F : Type) where
  name : Text
  raw : Option UInt64
  factor : F
  offset : F
  minimum : F
  maximum : F
  unit : Text
  label : Option Text

def label (s : SigBuilder F) (data : List UInt8) : Option Text := (rawValue s data).bind s.values

def reading (data : List UInt8) (s : SigBuilder F) : Reading F :=
  { name := s.name, raw := rawValue s data, factor := s.factor, offset := s.offset,
    minimum := s.minimum, maximum := s.maximum, unit := s.unit, label := label s data }

/-- The signals of a frame that is not multiplexed. -/
def decode (m : MsgBuilder F) (data : List UInt8) : List (Reading F) := m.sigs.map (reading data)

structure SameMeaning (sm dm : MsgBuilder F) : Prop where
  id : sm.id = dm.id
  ext : sm.ext = dm.ext
  dlc : sm.dlc = dm.dlc
  payload : ∀ data rd, rd ∈ decode sm data ↔ rd ∈ decode dm data

/-! ## What the check asks -/

def Plain (m : MsgBuilder F) : Prop := ∀ s ∈ m.sigs, s.isMultiplexor = false ∧ s.isMultiplexed = false

def Unique (m : MsgBuilder F) : Prop := (m.sigs.map (·.name)).Nodup

/-- What a frame has to be to be forwarded as it is. -/
structure Forwardable (src dst : Bus) (r : Route) (sm dm : MsgBuilder F) : Prop where
  classic : src.fd = false ∧ dst.fd = false
  sender : Sender r.gateway dm.sender
  wellFormed : sm.id ≤ 0x7ff ∨ sm.ext = true
  short : sm.dlc ≤ 8
  cyclic : sm.cycleMs ≠ 0 ∧ 10 ≤ sm.cycleMs
  plain : Plain sm ∧ Plain dm
  unique : Unique sm ∧ Unique dm

/-- Two definitions that agree in all but the tables, which pass. -/
structure Compatible (sm dm : MsgBuilder F) : Prop where
  id : sm.id = dm.id
  ext : sm.ext = dm.ext
  dlc : sm.dlc = dm.dlc
  cycleMs : sm.cycleMs = dm.cycleMs
  count : sm.sigs.length = dm.sigs.length
  signals : ∀ a ∈ sm.sigs, ∃ b, dm.sigs.find? (·.name = a.name) = some b ∧ Alike a b ∧ TablesPass a b

theorem muxIssues_eq_nil {m : MsgBuilder F} : muxIssues m = [] ↔ Plain m := by
  unfold muxIssues Plain
  cases h : m.sigs.find? fun s => s.isMultiplexor || s.isMultiplexed with
  | some s =>
    have hs := List.find?_some h
    have hmem := List.mem_of_find?_eq_some h
    refine iff_of_false (by simp) fun hplain => ?_
    simp [hplain s hmem] at hs
  | none =>
    rw [List.find?_eq_none] at h
    simpa using h

theorem repeatIssues_eq_nil (seen : List Text) (ss : List (SigBuilder F)) :
    repeatIssues seen ss = [] ↔ (ss.map (·.name)).Nodup ∧ ∀ s ∈ ss, s.name ∉ seen := by
  induction ss generalizing seen with
  | nil => simp [repeatIssues]
  | cons s ss ih =>
    simp only [repeatIssues, List.append_eq_nil_iff, issueIf_eq_nil, ih, List.map_cons,
      List.nodup_cons, List.mem_map, List.mem_cons, not_or, forall_eq_or_imp]
    constructor
    · rintro ⟨hs, hnodup, hrest⟩
      exact ⟨⟨fun ⟨t, ht, he⟩ => (hrest t ht).1 he, hnodup⟩, hs, fun t ht => (hrest t ht).2⟩
    · rintro ⟨⟨hnot, hnodup⟩, hs, hrest⟩
      exact ⟨hs, hnodup, fun t ht => ⟨fun he => hnot ⟨t, ht, he⟩, hrest t ht⟩⟩

section Checked

variable [DecidableEq F]

theorem signalIssues_eq_nil {dm : MsgBuilder F} {a : SigBuilder F} :
    signalIssues dm a = [] ↔
      ∃ b, dm.sigs.find? (·.name = a.name) = some b ∧ Alike a b ∧ TablesPass a b := by
  unfold signalIssues
  cases dm.sigs.find? (·.name = a.name) with
  | none => simp
  | some b =>
    simp only [Option.some.injEq, exists_eq_left', ← sigWireDiff_eq_none]
    cases sigWireDiff a b <;> simp

theorem frameIssues_eq_nil {src dst : Bus} {r : Route} {sm dm : MsgBuilder F} :
    frameIssues src dst r sm dm = [] ↔ Forwardable src dst r sm dm ∧ Compatible sm dm := by
  have hwell : ∀ {id : UInt32} {ext : Bool}, ¬ (0x7ff < id ∧ ext = false) ↔ id ≤ 0x7ff ∨ ext = true := by
    intro id ext
    rw [not_and_or, UInt32.not_lt, Bool.not_eq_false]
  have hcadence : cadenceIssues sm dm = [] ↔
      (sm.cycleMs ≠ 0 ∧ 10 ≤ sm.cycleMs) ∧ sm.cycleMs = dm.cycleMs := by
    unfold cadenceIssues
    split
    · simp only [List.cons_ne_nil, false_iff]
      omega
    · split
      · simp only [List.cons_ne_nil, false_iff]
        omega
      · split <;> simp <;> omega
  simp only [frameIssues, List.append_eq_nil_iff, issueIf_eq_nil, hcadence, List.flatMap_cons,
    List.flatMap_nil, muxIssues_eq_nil, repeatIssues_eq_nil, List.flatMap_eq_nil_iff,
    signalIssues_eq_nil, not_not, ne_eq, and_true, List.not_mem_nil, not_false_eq_true, implies_true]
  constructor
  · rintro ⟨⟨⟨⟨⟨⟨⟨⟨⟨⟨⟨hext, hid⟩, hlong⟩, hfd⟩, hcyc, hcycle⟩, hsender⟩, hideq⟩, hdlc⟩, hplain⟩, hunique⟩, hcount⟩,
      hsignals⟩
    refine ⟨⟨by simpa using hfd, hsender, ?_, by omega, hcyc, hplain, hunique⟩,
      ⟨hideq, hext, hdlc, hcycle, hcount, hsignals⟩⟩
    exact hwell.mp (not_or.mp hid).1
  · rintro ⟨hf, hc⟩
    refine ⟨⟨⟨⟨⟨⟨⟨⟨⟨⟨⟨hc.ext, ?_⟩, ?_⟩, ?_⟩, hf.cyclic, hc.cycleMs⟩, hf.sender⟩, hc.id⟩, hc.dlc⟩, hf.plain⟩,
      hf.unique⟩, hc.count⟩, hc.signals⟩
    · refine not_or.mpr ⟨hwell.mpr hf.wellFormed, hwell.mpr ?_⟩
      rw [← hc.id, ← hc.ext]
      exact hf.wellFormed
    · have := hf.short
      have := hc.dlc
      omega
    · simp [hf.classic]

end Checked

/-! ## Where the meaning is kept -/

theorem Alike.rawValue_eq {a b : SigBuilder F} (h : Alike a b) (data : List UInt8) :
    rawValue a data = rawValue b data := by
  unfold rawValue
  rw [h.startBit, h.length, h.byteOrder]

/-- A raw value that only one of two tables labels. -/
def OneSided (a b : SigBuilder F) (k : UInt64) : Prop := (a.values k).isSome ≠ (b.values k).isSome

/-- Tables that pass label a raw value alike, unless only one of them labels it. -/
theorem TablesPass.apply_eq {a b : SigBuilder F} (h : TablesPass a b) {k : UInt64}
    (hk : ¬ OneSided a b k) : a.values k = b.values k := by
  unfold OneSided at hk
  rw [not_not] at hk
  cases ha : a.values k with
  | none =>
    rw [ha] at hk
    exact (Option.isNone_iff_eq_none.mp (by simpa using hk.symm)).symm
  | some l =>
    rw [ha] at hk
    obtain ⟨l', hl'⟩ := Option.isSome_iff_exists.mp hk.symm
    have hget := h.2 k l ha
    rw [hl'] at hget ⊢
    exact congrArg some hget.symm

theorem OneSided.ne {a b : SigBuilder F} {k : UInt64} (h : OneSided a b k) : a.values k ≠ b.values k :=
  fun he => h (by rw [he])

/-- A signal whose tables differ in an empty label, and a payload that shows a label on one bus only. -/
structure SlipsAt (sm dm : MsgBuilder F) (a b : SigBuilder F) (data : List UInt8) : Prop where
  source : a ∈ sm.sigs
  destination : dm.sigs.find? (·.name = a.name) = some b
  empty : ∃ k, a.values k = some [] ∧ b.values k = none
  shown : ∃ k, rawValue a data = some k ∧ OneSided a b k

/-- The signal of a name. -/
theorem find_unique {m : MsgBuilder F} (hm : Unique m) {s : SigBuilder F} (hs : s ∈ m.sigs) {n : Text}
    (hn : s.name = n) : m.sigs.find? (·.name = n) = some s := by
  cases hf : m.sigs.find? (·.name = n) with
  | none =>
    rw [List.find?_eq_none] at hf
    exact absurd hn (by simpa using hf s hs)
  | some t =>
    have ht : t.name = n := by simpa using List.find?_some hf
    have hinj := List.inj_on_of_nodup_map hm (List.mem_of_find?_eq_some hf) hs (ht.trans hn.symm)
    rw [hinj]

/-- Each signal of the destination is that of a signal of the source. -/
theorem Compatible.onto {sm dm : MsgBuilder F} (h : Compatible sm dm) (hs : Unique sm) (hd : Unique dm)
    {b : SigBuilder F} (hb : b ∈ dm.sigs) :
    ∃ a ∈ sm.sigs, dm.sigs.find? (·.name = a.name) = some b := by
  have hsub : sm.sigs.map (·.name) ⊆ dm.sigs.map (·.name) := by
    intro n hn
    obtain ⟨a, ha, rfl⟩ := List.mem_map.mp hn
    obtain ⟨b', hb', -⟩ := h.signals a ha
    exact List.mem_map.mpr ⟨b', List.mem_of_find?_eq_some hb', by simpa using List.find?_some hb'⟩
  have hperm := (hs.subperm hsub).perm_of_length_le (by simp [h.count])
  obtain ⟨a, ha, hname⟩ := List.mem_map.mp (hperm.mem_iff.mpr (List.mem_map.mpr ⟨b, hb, rfl⟩))
  exact ⟨a, ha, find_unique hd hb hname.symm⟩

theorem reading_eq {a b : SigBuilder F} (h : Alike a b) (hname : a.name = b.name) {data : List UInt8}
    (hlabel : label a data = label b data) : reading data a = reading data b := by
  simp only [reading, hname, h.rawValue_eq, h.factor, h.offset, h.minimum, h.maximum, h.unit, hlabel]

/-- Two compatible frames mean the same unless they slip. -/
theorem Compatible.same {sm dm : MsgBuilder F} (h : Compatible sm dm) (hs : Unique sm) (hd : Unique dm)
    (hslip : ¬ ∃ a b data, SlipsAt sm dm a b data) : SameMeaning sm dm := by
  have hread : ∀ a ∈ sm.sigs, ∀ b, dm.sigs.find? (·.name = a.name) = some b → ∀ data,
      reading data a = reading data b := by
    intro a ha b hb data
    obtain ⟨b', hb', halike, hpass⟩ := h.signals a ha
    obtain rfl := Option.some.inj (hb.symm.trans hb')
    have hname : b.name = a.name := by simpa using List.find?_some hb
    refine reading_eq halike hname.symm ?_
    unfold label
    rw [← halike.rawValue_eq]
    cases hraw : rawValue a data with
    | none => rfl
    | some k =>
      refine hpass.apply_eq fun hone => hslip ⟨a, b, data, ha, hb, ?_, k, hraw, hone⟩
      -- a label on one side only comes with an empty one that the destination lacks
      by_contra hempty
      exact hone.ne (congrFun (hpass.eq fun k' hk hnone => hempty ⟨k', hk, hnone⟩) k)
  refine ⟨h.id, h.ext, h.dlc, fun data rd => ⟨fun hrd => ?_, fun hrd => ?_⟩⟩
  · obtain ⟨a, ha, rfl⟩ := List.mem_map.mp hrd
    obtain ⟨b, hb, -⟩ := h.signals a ha
    rw [hread a ha b hb data]
    exact List.mem_map_of_mem (List.mem_of_find?_eq_some hb)
  · obtain ⟨b, hb, rfl⟩ := List.mem_map.mp hrd
    obtain ⟨a, ha, hfind⟩ := h.onto hs hd hb
    rw [← hread a ha b hfind data]
    exact List.mem_map_of_mem ha

/-- Frames that slip do not mean the same. -/
theorem SlipsAt.not_same {sm dm : MsgBuilder F} {a b : SigBuilder F} {data : List UInt8}
    (h : SlipsAt sm dm a b data) (hc : Compatible sm dm) (hd : Unique dm) : ¬ SameMeaning sm dm := by
  intro hsame
  have hmem : reading data a ∈ decode dm data :=
    (hsame.payload data _).mp (List.mem_map_of_mem h.source)
  obtain ⟨b', hb', hread⟩ := List.mem_map.mp hmem
  have hname : b'.name = a.name := congrArg Reading.name hread
  obtain rfl : b = b' := Option.some.inj (h.destination.symm.trans (find_unique hd hb' hname))
  obtain ⟨k, hraw, hone⟩ := h.shown
  obtain ⟨b₁, hb₁, halike, -⟩ := hc.signals a h.source
  obtain rfl := Option.some.inj (h.destination.symm.trans hb₁)
  have hlabel : label b data = label a data := congrArg Reading.label hread
  unfold label at hlabel
  rw [← halike.rawValue_eq, hraw] at hlabel
  exact hone.ne hlabel.symm

/-- A signal without what is about its node and its documentation. -/
def wire (s : SigBuilder F) : SigBuilder F := { s with receivers := [], desc := [], startValue := [] }

/-- Two definitions that differ in the order of their signals and in names of nodes. -/
structure Equal (sm dm : MsgBuilder F) : Prop where
  id : sm.id = dm.id
  ext : sm.ext = dm.ext
  dlc : sm.dlc = dm.dlc
  cycleMs : sm.cycleMs = dm.cycleMs
  signals : (sm.sigs.map wire).Perm (dm.sigs.map wire)

theorem Equal.compatible {sm dm : MsgBuilder F} (h : Equal sm dm) (hd : Unique dm) : Compatible sm dm := by
  refine ⟨h.id, h.ext, h.dlc, h.cycleMs, by simpa using h.signals.length_eq, fun a ha => ?_⟩
  obtain ⟨b, hb, he⟩ := List.mem_map.mp (h.signals.mem_iff.mp (List.mem_map_of_mem ha))
  have field : ∀ {α : Type} (f : SigBuilder F → α), f (wire b) = f (wire a) := fun f => congrArg f he
  have hvalues : b.values = a.values := field SigBuilder.values
  refine ⟨b, find_unique hd hb (field SigBuilder.name), ?_, by rw [hvalues], fun k l hk => ?_⟩
  · constructor
    exacts [(field SigBuilder.startBit).symm, (field SigBuilder.length).symm,
      (field SigBuilder.factor).symm, (field SigBuilder.offset).symm,
      (field SigBuilder.minimum).symm, (field SigBuilder.maximum).symm,
      (field SigBuilder.isSigned).symm, (field SigBuilder.byteOrder).symm,
      (field SigBuilder.unit).symm, (field SigBuilder.isMultiplexor).symm,
      (field SigBuilder.isMultiplexed).symm, (field SigBuilder.multiplexorValue).symm]
  · rw [hvalues, hk]
    rfl

/-- The meaning of a frame is kept by a route that the check accepts, and equal frames are accepted,
exactly where no payload shows a label on one bus only, which takes an empty label in the source's table
for a value that the destination's lacks. -/
theorem contract_keeps_meaning_iff [DecidableEq F] {s : System F} {r : Route} {src dst : Bus}
    {srcDb dstDb : Database F} (hsrc : s.busByName r.fromBus = some src)
    (hdst : s.busByName r.toBus = some dst) (hsrcDb : routeLoadBusDbc s src = .ok srcDb)
    (hdstDb : routeLoadBusDbc s dst = .ok dstDb) :
    ((checkFrameRouteContract s r = [] → ∃ sm dm, routeMsgOf srcDb r.frame = some sm ∧
        routeMsgOf dstDb r.frame = some dm ∧ SameMeaning sm dm) ∧
      ∀ sm dm, routeMsgOf srcDb r.frame = some sm → routeMsgOf dstDb r.frame = some dm →
        Equal sm dm → Forwardable src dst r sm dm → checkFrameRouteContract s r = []) ↔
    ∀ sm dm, routeMsgOf srcDb r.frame = some sm → routeMsgOf dstDb r.frame = some dm →
      Forwardable src dst r sm dm → Compatible sm dm → ¬ ∃ a b data, SlipsAt sm dm a b data := by
  have hcheck : ∀ sm dm, routeMsgOf srcDb r.frame = some sm → routeMsgOf dstDb r.frame = some dm →
      (checkFrameRouteContract s r = [] ↔ Forwardable src dst r sm dm ∧ Compatible sm dm) := by
    intro sm dm hsm hdm
    rw [← frameIssues_eq_nil]
    simp only [checkFrameRouteContract, hsrc, hdst, hsrcDb, hdstDb, hsm, hdm]
  constructor
  · rintro ⟨hkept, -⟩ sm dm hsm hdm hf hc ⟨a, b, data, hslip⟩
    obtain ⟨sm', dm', hsm', hdm', hsame⟩ := hkept ((hcheck sm dm hsm hdm).mpr ⟨hf, hc⟩)
    obtain rfl := Option.some.inj (hsm.symm.trans hsm')
    obtain rfl := Option.some.inj (hdm.symm.trans hdm')
    exact hslip.not_same hc hf.unique.2 hsame
  · intro hno
    refine ⟨fun hnil => ?_, fun sm dm hsm hdm heq hf => ?_⟩
    · cases hsm : routeMsgOf srcDb r.frame with
      | none => simp [checkFrameRouteContract, hsrc, hdst, hsrcDb, hdstDb, hsm] at hnil
      | some sm =>
        cases hdm : routeMsgOf dstDb r.frame with
        | none => simp [checkFrameRouteContract, hsrc, hdst, hsrcDb, hdstDb, hsm, hdm] at hnil
        | some dm =>
          obtain ⟨hf, hc⟩ := (hcheck sm dm hsm hdm).mp hnil
          exact ⟨sm, dm, rfl, rfl, hc.same hf.unique.1 hf.unique.2 (hno sm dm hsm hdm hf hc)⟩
    · exact (hcheck sm dm hsm hdm).mpr ⟨hf, heq.compatible hf.unique.2⟩

/-! ## A route that slips -/

/-- A table of two labels. -/
def twoLabels (k : UInt64) (l : String) (k' : UInt64) (l' : String) : UInt64 → Option Text :=
  Function.update (Function.update (fun _ => none) k (some l.toList)) k' (some l'.toList)

def gearSignal (values : UInt64 → Option Text) : SigBuilder ℕ :=
  { name := "gear".toList, startBit := 0, length := 8, factor := 1, offset := 0, minimum := 0,
    maximum := 0, unit := [], receivers := [], values := values, isSigned := false,
    byteOrder := .littleEndian, isMultiplexor := false, isMultiplexed := false, multiplexorValue := 0 }

def gearFrame (values : UInt64 → Option Text) : MsgBuilder ℕ :=
  { name := "gear_box".toList, id := 256, ext := false, dlc := 1, sender := [], cycleMs := 100
    sigs := [gearSignal values] }

theorem gearFrame_plain (values : UInt64 → Option Text) : Plain (gearFrame values) := by
  intro s hs
  obtain rfl := List.mem_singleton.mp hs
  exact ⟨rfl, rfl⟩

theorem gearFrame_unique (values : UInt64 → Option Text) : Unique (gearFrame values) :=
  List.nodup_singleton _

def gearSystem : System ℕ :=
  { buses := [{ name := "a".toList, dbc := "a.dbc".toList, fd := false },
      { name := "b".toList, dbc := "b.dbc".toList, fd := false }]
    load := fun name =>
      if name = "a.dbc".toList then
        some { messages := [gearFrame (twoLabels 1 "" 2 "x")], nodes := [] }
      else some { messages := [gearFrame (twoLabels 3 "y" 2 "x")], nodes := [] } }

def gearRoute : Route :=
  { gateway := "gw".toList, frame := "gear_box".toList, fromBus := "a".toList, toBus := "b".toList }

/-- The empty label of 1 passes for the label that 1 does not have, and so the label of 3 is let through. -/
theorem empty_label_passes : checkFrameRouteContract gearSystem gearRoute = [] ∧
    ¬ SameMeaning (gearFrame (twoLabels 1 "" 2 "x")) (gearFrame (twoLabels 3 "y" 2 "x")) := by
  have hsize : ∀ (k : UInt64) (l : String), k ≠ 2 → (keys (twoLabels k l 2 "x")).length = 2 := by
    intro k l hk
    rw [twoLabels, length_keys_update, length_keys_update rfl, keys_none]
    · rfl
    · rw [Function.update_of_ne (Ne.symm hk)]
  have hpass : TablesPass (gearSignal (twoLabels 1 "" 2 "x")) (gearSignal (twoLabels 3 "y" 2 "x")) := by
    refine ⟨(hsize 1 "" (by decide)).trans (hsize 3 "y" (by decide)).symm, fun k l hk => ?_⟩
    change twoLabels 1 "" 2 "x" k = some l at hk
    change (twoLabels 3 "y" 2 "x" k).getD [] = l
    unfold twoLabels at hk ⊢
    by_cases h₂ : k = 2
    · subst h₂
      simpa using hk
    · rw [Function.update_of_ne h₂] at hk ⊢
      by_cases h₁ : k = 1
      · subst h₁
        simpa using hk
      · rw [Function.update_of_ne h₁] at hk
        cases hk
  have hcompat : Compatible (gearFrame (twoLabels 1 "" 2 "x")) (gearFrame (twoLabels 3 "y" 2 "x")) := by
    refine ⟨rfl, rfl, rfl, rfl, rfl, fun a ha => ?_⟩
    obtain rfl := List.mem_singleton.mp ha
    exact ⟨gearSignal (twoLabels 3 "y" 2 "x"), rfl, by constructor <;> rfl, hpass⟩
  refine ⟨?_, ?_⟩
  · show frameIssues _ _ _ _ _ = []
    exact frameIssues_eq_nil.mpr ⟨⟨⟨rfl, rfl⟩, Or.inl rfl, Or.inl (by decide), by decide, by decide,
      ⟨gearFrame_plain _, gearFrame_plain _⟩, ⟨gearFrame_unique _, gearFrame_unique _⟩⟩, hcompat⟩
  · have hslip : SlipsAt (gearFrame (twoLabels 1 "" 2 "x")) (gearFrame (twoLabels 3 "y" 2 "x"))
        (gearSignal (twoLabels 1 "" 2 "x")) (gearSignal (twoLabels 3 "y" 2 "x")) [3] := by
      refine ⟨List.mem_singleton_self _, rfl, ⟨1, by decide, by decide⟩, 3, by decide, ?_⟩
      show (twoLabels 1 "" 2 "x" 3).isSome ≠ (twoLabels 3 "y" 2 "x" 3).isSome
      decide
    exact hslip.not_same hcompat (gearFrame_unique _)

/-- Both buses with the table that has the empty label. -/
def twinSystem : System ℕ :=
  { gearSystem with
    load := fun _ => some { messages := [gearFrame (twoLabels 1 "" 2 "x")], nodes := [] } }

/-- Equal tables are forwarded, the empty label included. -/
theorem contract_keeps_meaning_twin : checkFrameRouteContract twinSystem gearRoute = [] := by
  have hkeeps := (contract_keeps_meaning_iff (s := twinSystem) (r := gearRoute) rfl rfl rfl rfl).mpr ?_
  · refine hkeeps.2 (gearFrame (twoLabels 1 "" 2 "x")) (gearFrame (twoLabels 1 "" 2 "x")) rfl rfl
      ⟨rfl, rfl, rfl, rfl, List.Perm.refl _⟩ ?_
    exact ⟨⟨rfl, rfl⟩, Or.inl rfl, Or.inl (by decide), by decide, by decide,
      ⟨gearFrame_plain _, gearFrame_plain _⟩, ⟨gearFrame_unique _, gearFrame_unique _⟩⟩
  · rintro sm dm hsm hdm - - ⟨a, b, data, hslip⟩
    obtain rfl : sm = dm := Option.some.inj (hsm.symm.trans hdm)
    obtain rfl : gearFrame (twoLabels 1 "" 2 "x") = sm := Option.some.inj hsm
    obtain rfl := List.mem_singleton.mp hslip.source
    obtain rfl := Option.some.inj hslip.destination
    obtain ⟨k, hk, hnone⟩ := hslip.empty
    rw [hk] at hnone
    cases hnone

end BloblyEmb.Sysmodel.Contract
