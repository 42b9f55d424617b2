import BloblyEmb.Sysmodel.Routes

/-!
# Routed traffic never recirculates

What the checks of a system say of a chain of routes. A frame that is forwarded keeps its name from
bus to bus, so the graph of its name has the whole chain; a signal is routed from the bus of its
producer only, and a frame that carries it cannot come back there.
-/
namespace BloblyEmb.Sysmodel

/-! ## The search -/

/-- A directed cycle among the edges. -/
def HasCycle (es : List (String × String)) : Prop :=
  ∃ x, Relation.TransGen (fun a b => (a, b) ∈ es) x x

theorem mem_graphNodes {es : List (String × String)} {n : String} :
    n ∈ graphNodes es ↔ ∃ e ∈ es, n = e.1 ∨ n = e.2 := by
  simp [graphNodes, List.mem_eraseDups]

theorem mem_graphAdj {es : List (String × String)} {a b : String} :
    b ∈ graphAdj es a ↔ (a, b) ∈ es := by
  simp only [graphAdj, List.mem_map, List.mem_filter, decide_eq_true_eq]
  constructor
  · rintro ⟨⟨x, y⟩, ⟨hmem, rfl⟩, rfl⟩
    exact hmem
  · intro h
    exact ⟨(a, b), ⟨h, rfl⟩, rfl⟩

/-- The search ends on every list of edges, and says whether they contain a cycle. -/
theorem graphHasCycle_spec (es : List (String × String)) :
    ∃ b, graphHasCycle es = some b ∧ (b = true ↔ HasCycle es) := by
  have hV : ∀ x ∈ (graphNodes es).toFinset, ∀ y ∈ graphAdj es x, y ∈ (graphNodes es).toFinset := by
    intro x _ y hy
    rw [List.mem_toFinset, mem_graphNodes]
    exact ⟨(x, y), mem_graphAdj.mp hy, Or.inr rfl⟩
  have hedge : ∀ x, x ∉ (graphNodes es).toFinset → graphAdj es x = [] := by
    intro x hx
    rw [List.eq_nil_iff_forall_not_mem]
    intro y hy
    apply hx
    rw [List.mem_toFinset, mem_graphNodes]
    exact ⟨(x, y), mem_graphAdj.mp hy, Or.inl rfl⟩
  obtain ⟨b, hsearch, hb⟩ := Graph.search_eq hV (graphNodes es) (fun n => List.mem_toFinset.symm)
    hedge (List.toFinset_card_le _)
  refine ⟨b, hsearch, hb.trans ?_⟩
  have hrel : Graph.Edge (graphAdj es) = fun a b => (a, b) ∈ es := by
    funext a b
    exact propext mem_graphAdj
  simp only [Graph.Cyclic, HasCycle, hrel]

/-! ## Chains of routes -/

/-- A frame on a bus, by what it is on the wire. -/
structure Place where
  bus : String
  ident : UInt32 × Bool

/-- What a chain carries: the value of a signal, or a frame as it is. -/
inductive Carried where
  | value (signal : String)
  | pdu

/-- The frame at a place carries the signal. -/
def System.CarriesAt (s : System) (p : Place) (sig : String) : Prop :=
  ∃ b db m, s.busByName p.bus = some b ∧ s.database b = some db ∧ m ∈ db ∧ m.ident = p.ident ∧
    sig ∈ m.signals

/-- A route takes its signal or its frame from one place to another. -/
def System.Moves (s : System) (r : Route) (p q : Place) : Prop :=
  ∃ src dst, s.busByName r.fromBus = some src ∧ s.busByName r.toBus = some dst ∧
    p.bus = r.fromBus ∧ q.bus = r.toBus ∧
    if r.signal ≠ "" then
      s.dbcSigFrameIdent src r.signal = some p.ident ∧ s.dbcSigFrameIdent dst r.signal = some q.ident
    else s.dbcFrameIdent src r.frame = some p.ident ∧ s.dbcFrameIdent dst r.frame = some q.ident

/-- A frame route carries what is in its frame, and a signal route its signal. -/
def System.Takes (s : System) (r : Route) (p : Place) : Carried → Prop
  | .pdu => r.frame ≠ ""
  | .value v => (r.signal ≠ "" ∧ r.signal = v) ∨ (r.frame ≠ "" ∧ s.CarriesAt p v)

/-- One route of a chain. -/
def System.Hop (s : System) (c : Carried) (p q : Place) : Prop :=
  ∃ r ∈ s.routes, s.Moves r p q ∧ s.Takes r p c

/-! ## What is checked -/

section

variable {s : System} {r : Route}

theorem repeats_nodup {α β : Type} [DecidableEq β] {key : α → β} {issue : α → Issue} {seen : List β}
    {xs : List α} (h : repeats key issue seen xs = []) :
    (xs.map key).Nodup ∧ ∀ x ∈ xs, key x ∉ seen := by
  induction xs generalizing seen with
  | nil => simp
  | cons x xs ih =>
    rw [repeats, List.append_eq_nil_iff, issueIf_eq_nil] at h
    obtain ⟨hnd, hseen⟩ := ih h.2
    constructor
    · rw [List.map_cons, List.nodup_cons]
      refine ⟨?_, hnd⟩
      intro hmem
      obtain ⟨y, hy, heq⟩ := List.mem_map.mp hmem
      exact hseen y hy (heq ▸ List.mem_cons_self)
    · intro y hy
      rcases List.mem_cons.mp hy with rfl | hy
      · exact h.1
      · exact fun hmem => hseen y hy (List.mem_cons_of_mem _ hmem)

theorem eq_of_key {α β : Type} {key : α → β} {xs : List α} (h : (xs.map key).Nodup) {x y : α}
    (hx : x ∈ xs) (hy : y ∈ xs) (heq : key x = key y) : x = y :=
  List.inj_on_of_nodup_map h hx hy heq

/-- What the checks leave of a system without errors. -/
structure Checked (s : System) : Prop where
  /-- A route goes from one bus to another, for a frame or a signal. -/
  distinct : ∀ r ∈ s.routes, r.fromBus ≠ "" ∧ r.toBus ≠ "" ∧ r.fromBus ≠ r.toBus
  one : ∀ r ∈ s.routes, ¬((r.frame = "") = (r.signal = ""))
  can : ∀ r ∈ s.routes, ∀ b, s.busByName r.toBus = some b → b.kind ≠ "someip"
  /-- A routed signal is declared on the bus that it is routed from. -/
  produced : ∀ r ∈ s.routes, r.signal ≠ "" →
    ∃ ss ∈ s.signals, ss.name = r.signal ∧ ss.bus = r.fromBus
  /-- Nothing declared on a bus is in a frame that is forwarded there. -/
  owned : ∀ r ∈ s.routes, r.frame ≠ "" → ∀ b, s.busByName r.toBus = some b →
    ∀ ident, s.dbcFrameIdent b r.frame = some ident →
      ∀ ss ∈ s.signals, ss.bus = r.toBus → s.dbcSigFrameIdent b ss.name ≠ some ident
  acyclic : ∀ r ∈ s.routes, graphHasCycle (s.routeEdges r.entity) ≠ some true
  /-- A frame that is forwarded has the same signals on both sides. -/
  contract : ∀ r ∈ s.routes, r.frame ≠ "" → ∀ src dst, s.busByName r.fromBus = some src →
    s.busByName r.toBus = some dst →
      ∃ sdb ddb sm dm, s.database src = some sdb ∧ s.database dst = some ddb ∧
        System.msgOf sdb r.frame = some sm ∧ System.msgOf ddb r.frame = some dm ∧
        ∀ sg ∈ sm.signals, sg ∈ dm.signals
  once : (s.signals.map SysSignal.name).Nodup
  ids : ∀ b ∈ s.buses, ∀ db, s.database b = some db → (db.map Message.ident).Nodup
  unique : ∀ ss ∈ s.signals, ∀ b, s.busByName ss.bus = some b → b.kind ≠ "someip" →
    ∀ db, s.database b = some db → (db.filter (ss.name ∈ ·.signals)).length ≤ 1

theorem busByName_mem {name : String} {b : Bus} (h : s.busByName name = some b) :
    b ∈ s.buses ∧ b.name = name := by
  refine ⟨List.mem_of_find?_eq_some h, ?_⟩
  simpa using List.find?_some h

theorem flatMap_eq_nil {α : Type} {f : α → List Issue} {xs : List α} :
    xs.flatMap f = [] ↔ ∀ x ∈ xs, f x = [] := List.flatMap_eq_nil_iff

/-- A gateway's own checks of a route. -/
theorem checkRoute_nil (h : s.checkRoute r = []) :
    (r.fromBus ≠ "" ∧ r.toBus ≠ "" ∧ r.fromBus ≠ r.toBus) ∧ ¬((r.frame = "") = (r.signal = "")) ∧
      (∀ b, s.busByName r.toBus = some b → b.kind ≠ "someip") ∧
      s.checkRouteSignal r = [] ∧ s.checkRouteFrame r = [] := by
  unfold System.checkRoute at h
  split at h
  · simp at h
  · rename_i g _
    simp only [List.append_eq_nil_iff, issueIf_eq_nil] at h
    obtain ⟨⟨⟨⟨⟨⟨⟨hends, hsame⟩, hone⟩, -⟩, hto⟩, hsignal⟩, -⟩, hframe⟩ := h
    rw [not_or] at hends
    refine ⟨⟨hends.1, hends.2, fun heq => hsame ⟨heq, hends.1⟩⟩, hone, ?_, hsignal, hframe⟩
    intro b hb
    rw [System.checkRouteBus, if_neg hends.2, hb] at hto
    simp only [List.append_eq_nil_iff, issueIf_eq_nil] at hto
    exact hto.1

/-- With nothing authored on a node, what is produced on a bus is declared there. -/
theorem produced_of_nil (hwiring : s.checkPartialNoWiring = []) (hne : r.signal ≠ "")
    (hfrom : r.fromBus ≠ "") (h : s.checkRouteSignal r = []) :
    ∃ ss ∈ s.signals, ss.name = r.signal ∧ ss.bus = r.fromBus := by
  rw [System.checkRouteSignal, if_neg hne, List.append_eq_nil_iff, issueIf_eq_nil,
    issueIf_eq_nil] at h
  have hon : s.signalProducedOn r.signal r.fromBus = true := by
    by_contra hnot
    exact h.2 ⟨hfrom, Bool.eq_false_iff.mpr hnot⟩
  rw [System.signalProducedOn, Bool.or_eq_true] at hon
  rcases hon with hon | hon
  · obtain ⟨ss, hss, heq⟩ := List.any_eq_true.mp hon
    exact ⟨ss, hss, by simpa using heq⟩
  · exfalso
    split at hon
    · simp at hon
    · rename_i b _
      obtain ⟨n, hn, heq⟩ := List.any_eq_true.mp hon
      have hbare := flatMap_eq_nil.mp hwiring n hn
      rw [issueIf_eq_nil, Nat.not_lt, Nat.le_zero, List.length_eq_zero_iff] at hbare
      simp [n.view.wired hbare] at heq

theorem contract_of_nil {src dst : Bus} (h : s.checkFrameRouteContract r = [])
    (hsrc : s.busByName r.fromBus = some src) (hdst : s.busByName r.toBus = some dst) :
    ∃ sdb ddb sm dm, s.database src = some sdb ∧ s.database dst = some ddb ∧
      System.msgOf sdb r.frame = some sm ∧ System.msgOf ddb r.frame = some dm ∧
      ∀ sg ∈ sm.signals, sg ∈ dm.signals := by
  simp only [System.checkFrameRouteContract, hsrc, hdst] at h
  split at h
  · rename_i sm dm hsm hdm
    obtain ⟨sdb, hsdb, hsm⟩ := Option.bind_eq_some_iff.mp hsm
    obtain ⟨ddb, hddb, hdm⟩ := Option.bind_eq_some_iff.mp hdm
    simp only [List.append_eq_nil_iff, issueIf_eq_nil, flatMap_eq_nil, not_not] at h
    exact ⟨sdb, ddb, sm, dm, hsdb, hddb, hsm, hdm, h.2⟩
  · simp at h

theorem database_eq_some {b : Bus} {db : List Message} (h : s.database b = some db) :
    b.dbc ≠ "" ∧ s.load b.dbc = some db := by
  unfold System.database at h
  split at h
  · simp at h
  · exact ⟨‹_›, h⟩

theorem ids_of_nil {b : Bus} (h : s.checkBusDbc b = []) {db : List Message}
    (hdb : s.database b = some db) : (db.map Message.ident).Nodup := by
  obtain ⟨hne, hload⟩ := database_eq_some hdb
  rw [System.checkBusDbc, if_neg hne, hload] at h
  exact (repeats_nodup h).1

theorem unique_of_nil {ss : SysSignal} (h : s.checkSignalDbc ss = []) {b : Bus}
    (hb : s.busByName ss.bus = some b) (hkind : b.kind ≠ "someip") {db : List Message}
    (hdb : s.database b = some db) : (db.filter (ss.name ∈ ·.signals)).length ≤ 1 := by
  obtain ⟨hne, hload⟩ := database_eq_some hdb
  simp only [System.checkSignalDbc, hb, if_neg hkind, if_neg hne, hload] at h
  split at h
  · simp at h
  · rw [List.append_eq_nil_iff, issueIf_eq_nil, issueIf_eq_nil, Nat.not_lt] at h
    exact h.2

theorem owned_of_nil (h : s.checkRouteFrame r = []) (hframe : r.frame ≠ "") (hto : r.toBus ≠ "")
    {b : Bus} (hb : s.busByName r.toBus = some b) {ident : UInt32 × Bool}
    (hident : s.dbcFrameIdent b r.frame = some ident) {ss : SysSignal} (hss : ss ∈ s.signals)
    (hbus : ss.bus = r.toBus) : s.dbcSigFrameIdent b ss.name ≠ some ident := by
  rw [System.checkRouteFrame, if_neg (by simp [hframe, hto]), hb] at h
  simp only [hident, flatMap_eq_nil, issueIf_eq_nil] at h
  exact fun heq => h ss hss ⟨hbus, heq⟩

theorem checked (others : System → List Issue) (h : s.validateSystemGen others = []) :
    Checked s := by
  simp only [System.validateSystemGen, List.append_eq_nil_iff, System.checkRoutes,
    System.checkDbcConformance, flatMap_eq_nil] at h
  obtain ⟨⟨⟨⟨⟨hwiring, hroute, hcycles⟩, honce⟩, hbus, hsig⟩, hdbc⟩, -⟩ := h
  have hroutes := fun r hr => checkRoute_nil (hroute r hr)
  constructor
  case distinct => exact fun r hr => (hroutes r hr).1
  case one => exact fun r hr => (hroutes r hr).2.1
  case can => exact fun r hr => (hroutes r hr).2.2.1
  case produced =>
    intro r hr hne
    exact produced_of_nil hwiring hne (hroutes r hr).1.1 (hroutes r hr).2.2.2.1
  case owned =>
    intro r hr hframe b hb ident hident ss hss hss'
    exact owned_of_nil (hroutes r hr).2.2.2.2 hframe (hroutes r hr).1.2.1 hb hident hss hss'
  case acyclic =>
    intro r hr hcycle
    have hmem : r.entity ∈ (s.routes.map Route.entity).eraseDups :=
      List.mem_eraseDups.mpr (List.mem_map_of_mem hr)
    exact issueIf_eq_nil.mp (flatMap_eq_nil.mp hcycles _ hmem) hcycle
  case contract =>
    intro r hr hframe src dst hsrc hdst
    have hcontract := flatMap_eq_nil.mp hdbc r hr
    rw [if_neg (by simp [hframe, (hroutes r hr).1.2.1])] at hcontract
    exact contract_of_nil hcontract hsrc hdst
  case once => exact (repeats_nodup honce).1
  case ids => exact fun b hb db hdb => ids_of_nil (hbus b hb) hdb
  case unique => exact fun ss hss b hb hkind db hdb => unique_of_nil (hsig ss hss) hb hkind hdb

end

/-! ## Chains -/

section Chains

variable {s : System} {r r₁ r₂ : Route} {p q t : Place} {c : Carried}

/-- A route that forwards a frame is no signal route. -/
theorem Checked.frame_or_signal (h : Checked s) (hr : r ∈ s.routes) :
    (r.frame ≠ "" ∧ r.signal = "") ∨ (r.frame = "" ∧ r.signal ≠ "") := by
  have hone := h.one r hr
  by_cases hframe : r.frame = "" <;> by_cases hsignal : r.signal = "" <;> simp_all

theorem dbcFrameIdent_eq_some {b : Bus} {frame : String} {ident : UInt32 × Bool}
    (h : s.dbcFrameIdent b frame = some ident) :
    ∃ db m, s.database b = some db ∧ System.msgOf db frame = some m ∧ m ∈ db ∧ m.name = frame ∧
      m.ident = ident := by
  unfold System.dbcFrameIdent at h
  split at h
  · simp at h
  · rename_i db hdb
    obtain ⟨m, hm, hident⟩ := Option.map_eq_some_iff.mp h
    exact ⟨db, m, hdb, hm, List.mem_of_find?_eq_some hm, by simpa using List.find?_some hm, hident⟩

/-- Two frames of a bus with one id are one frame. -/
theorem Checked.same_frame (h : Checked s) {name : String} {b : Bus}
    (hb : s.busByName name = some b) {db : List Message} (hdb : s.database b = some db)
    {m m' : Message} (hm : m ∈ db) (hm' : m' ∈ db) (hident : m.ident = m'.ident) : m = m' :=
  eq_of_key (h.ids b (busByName_mem hb).1 db hdb) hm hm' hident

/-- A frame that is forwarded again is forwarded under its name. -/
theorem Checked.frame_name (h : Checked s) (hm₁ : s.Moves r₁ p q) (hs₁ : r₁.signal = "")
    (hm₂ : s.Moves r₂ q t) (hs₂ : r₂.signal = "") : r₁.frame = r₂.frame := by
  obtain ⟨src, b, -, hb, -, hbus, hident₁⟩ := hm₁
  obtain ⟨b', dst, hb', -, hbus', -, hident₂⟩ := hm₂
  rw [if_neg (not_not.mpr hs₁)] at hident₁
  rw [if_neg (not_not.mpr hs₂)] at hident₂
  have hsame : b' = b := by
    rw [← hbus, hbus', hb'] at hb
    exact Option.some.inj hb
  subst hsame
  obtain ⟨db, m₁, hdb, -, hmem₁, hname₁, heq₁⟩ := dbcFrameIdent_eq_some hident₁.2
  obtain ⟨db', m₂, hdb', -, hmem₂, hname₂, heq₂⟩ := dbcFrameIdent_eq_some hident₂.1
  cases hdb.symm.trans hdb'
  rw [← hname₁, ← hname₂, h.same_frame hb' hdb hmem₁ hmem₂ (heq₁.trans heq₂.symm)]

/-- A signal is not routed on from a frame that was forwarded to its bus. -/
theorem Checked.frame_then_signal (h : Checked s) (hr₁ : r₁ ∈ s.routes) (hm₁ : s.Moves r₁ p q)
    (hs₁ : r₁.signal = "") (hr₂ : r₂ ∈ s.routes) (hm₂ : s.Moves r₂ q t) : r₂.signal = "" := by
  by_contra hs₂
  have hframe : r₁.frame ≠ "" := by
    rcases h.frame_or_signal hr₁ with ⟨hframe, -⟩ | ⟨-, hsignal⟩
    · exact hframe
    · exact absurd hs₁ hsignal
  obtain ⟨ss, hss, hname, hssbus⟩ := h.produced r₂ hr₂ hs₂
  obtain ⟨src, b, -, hb, -, hbus, hident₁⟩ := hm₁
  obtain ⟨b', dst, hb', -, hbus', -, hident₂⟩ := hm₂
  rw [if_neg (not_not.mpr hs₁)] at hident₁
  rw [if_pos hs₂] at hident₂
  have hsame : b' = b := by
    rw [← hbus, hbus', hb'] at hb
    exact Option.some.inj hb
  subst hsame
  refine h.owned r₁ hr₁ hframe b' hb q.ident hident₁.2 ss hss ?_ ?_
  · rw [hssbus, ← hbus', hbus]
  · rw [hname]
    exact hident₂.1

/-- A frame that carries a signal is not forwarded to the bus where the signal is declared. -/
theorem Checked.frame_away (h : Checked s) (hr : r ∈ s.routes) (hm : s.Moves r p q)
    (hs : r.signal = "") {ss : SysSignal} (hss : ss ∈ s.signals) (hcarries : s.CarriesAt p ss.name) :
    ss.bus ≠ q.bus := by
  intro hbus
  have hframe : r.frame ≠ "" := by
    rcases h.frame_or_signal hr with ⟨hframe, -⟩ | ⟨-, hsignal⟩
    · exact hframe
    · exact absurd hs hsignal
  obtain ⟨src, dst, hsrc, hdst, hpbus, hqbus, hident⟩ := hm
  rw [if_neg (not_not.mpr hs)] at hident
  obtain ⟨sdb, ddb, sm, dm, hsdb, hddb, hsm, hdm, hsub⟩ := h.contract r hr hframe src dst hsrc hdst
  -- the frame at the source is the one that carries the signal
  obtain ⟨b, db, m, hb, hdb, hmem, hmident, hsig⟩ := hcarries
  rw [hpbus, hsrc] at hb
  cases hb
  cases hsdb.symm.trans hdb
  obtain ⟨db', m', hdb', hm', hmem', -, hm'ident⟩ := dbcFrameIdent_eq_some hident.1
  cases hsdb.symm.trans hdb'
  cases hsm.symm.trans hm'
  have hsame : sm = m := h.same_frame hsrc hsdb hmem' hmem (hm'ident.trans hmident.symm)
  subst hsame
  have hdsig : ss.name ∈ dm.signals := hsub _ hsig
  -- and at the destination it is the only one
  have hdmem : dm ∈ ddb := List.mem_of_find?_eq_some hdm
  have hdname : dm.name = r.frame := by simpa using List.find?_some hdm
  have hssb : s.busByName ss.bus = some dst := by rw [hbus, hqbus, hdst]
  have hlen := h.unique ss hss dst hssb (h.can r hr dst hdst) ddb hddb
  have hmemf : dm ∈ ddb.filter (ss.name ∈ ·.signals) := by
    rw [List.mem_filter]
    exact ⟨hdmem, by simpa using hdsig⟩
  have hfilter : ddb.filter (ss.name ∈ ·.signals) = [dm] := by
    obtain ⟨x, hx⟩ : ∃ x, ddb.filter (ss.name ∈ ·.signals) = [x] :=
      List.length_eq_one_iff.mp (Nat.le_antisymm hlen (List.length_pos_of_mem hmemf))
    rw [hx] at hmemf ⊢
    rw [List.mem_singleton.mp hmemf]
  have hframeOf : s.dbcFrameOf dst ss.name = some r.frame := by
    simp only [System.dbcFrameOf, hddb, hfilter, hdname]
  refine h.owned r hr hframe dst hdst q.ident hident.2 ss hss (hbus.trans hqbus) ?_
  simp only [System.dbcSigFrameIdent, hframeOf]
  exact hident.2

/-- A frame is forwarded under a name. -/
def System.Forwards (s : System) (frame x y : String) : Prop :=
  ∃ r ∈ s.routes, r.frame = frame ∧ r.signal = "" ∧ r.fromBus = x ∧ r.toBus = y

/-- No chain of one name closes. -/
theorem Checked.forwards_ne (h : Checked s) {frame x y : String}
    (hchain : Relation.TransGen (s.Forwards frame) x y) : x ≠ y := by
  rintro rfl
  have hmem : ∀ a b, s.Forwards frame a b → (a, b) ∈ s.routeEdges ("frm:" ++ frame) := by
    rintro a b ⟨r, hr, hframe, hsignal, rfl, rfl⟩
    obtain ⟨hfrom, hto, -⟩ := h.distinct r hr
    refine List.mem_map.mpr ⟨r, List.mem_filter.mpr ⟨hr, ?_⟩, rfl⟩
    simp [hfrom, hto, Route.entity, hsignal, hframe]
  have hcycle : HasCycle (s.routeEdges ("frm:" ++ frame)) := ⟨x, Relation.TransGen.mono hmem x x hchain⟩
  obtain ⟨y, ⟨r, hr, hframe, hsignal, -, -⟩, -⟩ := Relation.TransGen.head'_iff.mp hchain
  obtain ⟨b, hsearch, hb⟩ := graphHasCycle_spec (s.routeEdges ("frm:" ++ frame))
  refine h.acyclic r hr ?_
  rw [Route.entity, if_neg (not_not.mpr hsignal), hframe, hsearch, hb.mpr hcycle]

/-- A chain forwards one frame, or it begins with a signal route from the bus where the signal is
declared. -/
theorem Checked.chain (h : Checked s) (hchain : Relation.TransGen (s.Hop c) p q) :
    (∃ frame, Relation.TransGen (s.Forwards frame) p.bus q.bus ∧
      ∃ r ∈ s.routes, r.frame = frame ∧ r.signal = "" ∧ ∃ m, s.Moves r m q) ∨
    (∃ ss ∈ s.signals, c = .value ss.name ∧ ss.bus = p.bus ∧ ∃ m, s.Hop c m q) := by
  induction hchain with
  | single hhop =>
    obtain ⟨r, hr, hmoves, htakes⟩ := hhop
    obtain ⟨-, -, -, -, hpbus, hqbus, -⟩ := id hmoves
    rcases h.frame_or_signal hr with ⟨hframe, hsignal⟩ | ⟨hframe, hsignal⟩
    · exact Or.inl ⟨r.frame, .single ⟨r, hr, rfl, hsignal, hpbus.symm, hqbus.symm⟩, r, hr, rfl,
        hsignal, p, hmoves⟩
    · obtain ⟨ss, hss, hname, hbus⟩ := h.produced r hr hsignal
      refine Or.inr ⟨ss, hss, ?_, hbus.trans hpbus.symm, p, r, hr, hmoves, htakes⟩
      cases c with
      | pdu => exact absurd hframe htakes
      | value v =>
        rcases htakes with ⟨-, heq⟩ | ⟨hne, -⟩
        · rw [hname, heq]
        · exact absurd hframe hne
  | tail _ hhop ih =>
    rename_i m q _
    rcases ih with ⟨frame, hforwards, r₁, hr₁, hframe₁, hsignal₁, m₁, hmoves₁⟩ |
      ⟨ss, hss, hc, hbus, -⟩
    · obtain ⟨r, hr, hmoves, htakes⟩ := hhop
      obtain ⟨-, -, -, -, hpbus, hqbus, -⟩ := id hmoves
      have hsignal : r.signal = "" := h.frame_then_signal hr₁ hmoves₁ hsignal₁ hr hmoves
      have hframe : r.frame = frame := by
        rw [← hframe₁, h.frame_name hmoves₁ hsignal₁ hmoves hsignal]
      exact Or.inl ⟨frame, hforwards.tail ⟨r, hr, hframe, hsignal, hpbus.symm, hqbus.symm⟩, r, hr,
        hframe, hsignal, m, hmoves⟩
    · exact Or.inr ⟨ss, hss, hc, hbus, m, hhop⟩

/-- A signal is declared on one bus. -/
theorem Checked.one_bus (h : Checked s) {ss ss' : SysSignal} (hss : ss ∈ s.signals)
    (hss' : ss' ∈ s.signals) (hname : ss.name = ss'.name) : ss = ss' :=
  eq_of_key h.once hss hss' hname

/-- A chain of routes does not come back to the bus where it began. -/
theorem Checked.chain_ne (h : Checked s) (hchain : Relation.TransGen (s.Hop c) p q) :
    p.bus ≠ q.bus := by
  rcases h.chain hchain with ⟨frame, hforwards, -⟩ | ⟨ss, hss, hc, hbus, m, r, hr, hmoves, htakes⟩
  · exact h.forwards_ne hforwards
  · obtain ⟨-, -, -, -, hmbus, hqbus, -⟩ := id hmoves
    rcases h.frame_or_signal hr with ⟨hframe, hsignal⟩ | ⟨hframe, hsignal⟩
    · subst hc
      rcases htakes with ⟨hne, -⟩ | ⟨-, hcarries⟩
      · exact absurd hsignal hne
      · rw [← hbus]
        exact h.frame_away hr hmoves hsignal hss hcarries
    -- the last route is one of the signal itself, from the bus where it is declared
    · subst hc
      rcases htakes with ⟨-, heq⟩ | ⟨hne, -⟩
      · obtain ⟨ss', hss', hname', hbus'⟩ := h.produced r hr hsignal
        have hsame := h.one_bus hss hss' (heq.symm.trans hname'.symm)
        rw [← hbus, hqbus, hsame, hbus']
        exact (h.distinct r hr).2.2
      · exact absurd hframe hne

end Chains

/-- The search for a cycle is exact on every list of edges, and in a system without errors no chain
of routes carries a value or a frame back onto a bus that it was on. -/
theorem never_recirculates :
    (∀ es, ∃ b, graphHasCycle es = some b ∧ (b = true ↔ HasCycle es)) ∧
    ∀ (others : System → List Issue) (s : System), s.validateSystemGen others = [] →
      ∀ c p q, Relation.TransGen (s.Hop c) p q → p.bus ≠ q.bus :=
  ⟨graphHasCycle_spec, fun others _ h _ _ _ hchain => (checked others h).chain_ne hchain⟩

/-- A signal of one bus is routed to another, and the frame that carries it there to a third. -/
def bench : System where
  buses := [⟨"compute", "can0", "can", "compute.dbc"⟩, ⟨"edge", "can1", "can", "edge.dbc"⟩,
    ⟨"body", "can2", "can", "body.dbc"⟩]
  nodes := [⟨"gateway", ["compute", "edge", "body"], { wired := fun _ _ => rfl }⟩]
  signals := [⟨"Speed", "compute", "Motion"⟩]
  routes := [{ gateway := "gateway", signal := "Speed", fromBus := "compute", toBus := "edge" },
    { gateway := "gateway", frame := "EdgeMotion", fromBus := "edge", toBus := "body" }]
  load file :=
    if file = "compute.dbc" then some [⟨"Motion", 0x100, false, ["Speed"]⟩]
    else some [⟨"EdgeMotion", 0x200, false, ["Speed"]⟩]
  named := by decide

theorem never_recirculates_bench :
    graphHasCycle [("edge", "body"), ("body", "edge")] = some true ∧
    bench.validateSystemGen (fun _ => []) = [] ∧
    ∃ p q, p.bus = "compute" ∧ q.bus = "body" ∧
      Relation.TransGen (bench.Hop (.value "Speed")) p q ∧ p.bus ≠ q.bus := by
  have haccepted : bench.validateSystemGen (fun _ => []) = [] := by decide +kernel
  have hfirst : bench.Hop (.value "Speed") ⟨"compute", 0x100, false⟩ ⟨"edge", 0x200, false⟩ :=
    ⟨_, List.mem_cons_self, ⟨_, _, rfl, rfl, rfl, rfl, by decide +kernel⟩, Or.inl ⟨by decide, rfl⟩⟩
  have hnext : bench.Hop (.value "Speed") ⟨"edge", 0x200, false⟩ ⟨"body", 0x200, false⟩ := by
    refine ⟨_, List.mem_cons_of_mem _ List.mem_cons_self, ⟨_, _, rfl, rfl, rfl, rfl, ?_⟩, Or.inr ?_⟩
    · decide +kernel
    · exact ⟨by decide, _, _, _, rfl, rfl, List.mem_cons_self, rfl, List.mem_cons_self⟩
  have hchain := (Relation.TransGen.single hfirst).tail hnext
  exact ⟨by decide +kernel, haccepted, _, _, rfl, rfl, hchain,
    never_recirculates.2 (fun _ => []) bench haccepted _ _ _ hchain⟩

end BloblyEmb.Sysmodel
