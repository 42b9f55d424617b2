import BloblyEmb.Someip.System

/-!
# Accepted systems

What `validate_system_gen` tells of an event when it reports nothing: one producer for all of its
signals, one receiver that reads them all, both members of the segment and both with an endpoint.
-/
namespace BloblyEmb.Someip

open BloblyEmb.Someip.System (Issue repeats issueIf_eq_nil)

variable {s : System} {snake : String → String} {others : System → List Issue}

theorem repeats_eq_nil {α β : Type} [DecidableEq β] {key : α → β} {issue : α → Issue}
    {l : List α} {seen : List β} (h : repeats key issue seen l = []) :
    (l.map key).Nodup ∧ ∀ x ∈ l, key x ∉ seen := by
  induction l generalizing seen with
  | nil => exact ⟨List.nodup_nil, fun x hx => by cases hx⟩
  | cons x l ih =>
    simp only [repeats, List.append_eq_nil_iff, issueIf_eq_nil] at h
    obtain ⟨hx, h⟩ := h
    obtain ⟨hn, hs⟩ := ih h
    constructor
    · rw [List.map_cons, List.nodup_cons]
      refine ⟨fun hin => ?_, hn⟩
      obtain ⟨y, hy, he⟩ := List.mem_map.mp hin
      exact hs y hy (by rw [he]; exact List.mem_cons_self)
    · intro y hy
      rcases List.mem_cons.mp hy with rfl | hy
      · exact hx
      · exact fun hin => hs y hy (List.mem_cons_of_mem _ hin)

/-- An entry whose key is its own is the one that is found under it. -/
theorem eq_of_key {α β : Type} {key : α → β} {l : List α} (hn : (l.map key).Nodup) {x y : α}
    (hx : x ∈ l) (hy : y ∈ l) (h : key x = key y) : x = y :=
  List.inj_on_of_nodup_map hn hx hy h

theorem find_key {α β : Type} [DecidableEq β] {key : α → β} {l : List α}
    (hn : (l.map key).Nodup) {x : α} (hx : x ∈ l) : l.find? (fun y => key y = key x) = some x := by
  have hsome : (l.find? fun y => key y = key x).isSome := by
    rw [List.find?_isSome]
    exact ⟨x, hx, by simp⟩
  obtain ⟨y, hy⟩ := Option.isSome_iff_exists.mp hsome
  have hkey : key y = key x := by simpa using List.find?_some hy
  rw [hy, eq_of_key hn (List.mem_of_find?_eq_some hy) hx hkey]

/-- The issues that the lowering of an event rests on are absent. -/
structure Accepted (s : System) (snake : String → String) : Prop where
  nodes : (s.nodes.map Node.name).Nodup
  identifiers : ∀ n ∈ s.nodes, System.isIdentifier n.name
  signals : (s.signals.map SysSignal.name).Nodup
  frame : ∀ fr ∈ s.frames, s.checkFrame fr = []
  carried : (s.carried.map Prod.fst).Nodup
  carrier : ∀ sig ∈ s.signals, s.checkCarrier sig = []
  signal : ∀ sig ∈ s.signals, s.checkSignal sig = []
  segment : ∀ b ∈ s.buses, b.kind = "someip" → s.checkSegment snake b = []
  single : ∀ n ∈ s.nodes, (n.buses.filter fun b => s.isSomeipBus b).length ≤ 1
  hosts : ∀ n ∈ s.nodes, n.someipBad = false ∧ (n.ipHost = true → ∀ sig ∈ s.signals,
    ¬(sig.bus ∈ n.buses ∧ s.isSomeipBus sig.bus ∧
      (sig.producer = n.name ∨ sig.name ∈ n.fbReads)))

theorem accepted_of_ok (h : s.validateSystemGen snake others = []) : Accepted s snake := by
  simp only [System.validateSystemGen, List.append_eq_nil_iff] at h
  obtain ⟨⟨⟨⟨⟨⟨htop, hid⟩, hdis⟩, hseg⟩, hone⟩, hip⟩, -⟩ := h
  simp only [System.checkSignalsDissolved, System.checkSomeipSignalFrames,
    List.append_eq_nil_iff, List.flatMap_eq_nil_iff] at hdis
  obtain ⟨⟨hsig, ⟨hfr, hcar⟩, hcarrier⟩, hsignal⟩ := hdis
  refine ⟨(repeats_eq_nil htop).1, fun n hn => ?_, (repeats_eq_nil hsig).1, hfr,
    (repeats_eq_nil hcar).1, hcarrier, hsignal, fun b hb hk => ?_, fun n hn => ?_, fun n hn => ?_⟩
  · simpa using List.flatMap_eq_nil_iff.mp hid n hn
  · exact List.flatMap_eq_nil_iff.mp hseg b (List.mem_filter.mpr ⟨hb, by simpa using hk⟩)
  · simpa using List.flatMap_eq_nil_iff.mp hone n hn
  · have hn := List.flatMap_eq_nil_iff.mp hip n hn
    split_ifs at hn with hbad hhost
    · refine ⟨by simpa using hbad, fun _ sig hs => ?_⟩
      simpa only [issueIf_eq_nil] using List.flatMap_eq_nil_iff.mp hn sig hs
    · exact ⟨by simpa using hbad, fun h => absurd h hhost⟩

namespace Accepted

variable (ha : Accepted s snake)
include ha

theorem signalByName {sig : SysSignal} (hs : sig ∈ s.signals) :
    s.signalByName sig.name = some sig :=
  find_key ha.signals hs

theorem node_eq {n m : Node} (hn : n ∈ s.nodes) (hm : m ∈ s.nodes) (h : n.name = m.name) :
    n = m :=
  eq_of_key ha.nodes hn hm h

theorem name_ne {n : Node} (hn : n ∈ s.nodes) : n.name ≠ "" := by
  intro h
  have hid := ha.identifiers n hn
  rw [h] at hid
  exact absurd hid (by decide)

/-- The bus of an event is a segment, and the event has signals, all declared and on that bus. -/
theorem event {fr : SysFrame} (hfr : fr ∈ s.frames) :
    (∃ b ∈ s.buses, b.name = fr.bus ∧ b.kind = "someip" ∧ s.busByName fr.bus = some b) ∧
    fr.signals ≠ [] ∧
    ∀ sg ∈ fr.signals, ∃ sig ∈ s.signals, s.signalByName sg = some sig ∧ sig.name = sg ∧
      sig.bus = fr.bus := by
  have h := ha.frame fr hfr
  unfold System.checkFrame at h
  cases hb : s.busByName fr.bus with
  | none =>
    rw [hb] at h
    cases h
  | some b =>
    rw [hb] at h
    dsimp only at h
    split_ifs at h with hk
    simp only [List.append_eq_nil_iff, issueIf_eq_nil, List.flatMap_eq_nil_iff] at h
    have hname : b.name = fr.bus := by simpa using List.find?_some hb
    refine ⟨⟨b, List.mem_of_find?_eq_some hb, hname, by simpa using hk, rfl⟩, h.1,
      fun sg hsg => ?_⟩
    have hsig := h.2 sg hsg
    cases hs : s.signalByName sg with
    | none =>
      rw [hs] at hsig
      cases hsig
    | some sig =>
      rw [hs] at hsig
      exact ⟨sig, List.mem_of_find?_eq_some hs, rfl, by simpa using List.find?_some hs,
        by simpa using hsig⟩

theorem isSomeipBus {fr : SysFrame} (hfr : fr ∈ s.frames) : s.isSomeipBus fr.bus = true := by
  obtain ⟨⟨b, -, -, hk, hb⟩, -⟩ := ha.event hfr
  simp [System.isSomeipBus, hb, hk]

/-- A signal of an event names it as its frame. -/
theorem signal_frame {fr : SysFrame} (hfr : fr ∈ s.frames) {sig : SysSignal}
    (hs : sig ∈ s.signals) (hm : sig.name ∈ fr.signals) (hb : sig.bus = fr.bus) :
    sig.frame ≠ "" ∧ sig.frame = fr.name := by
  have hsome := ha.isSomeipBus hfr
  have hmem : (sig.name, fr.name) ∈ s.carried := by
    unfold System.carried
    rw [List.mem_flatMap]
    refine ⟨fr, List.mem_filter.mpr ⟨hfr, hsome⟩, List.mem_map.mpr ⟨sig.name, ?_, rfl⟩⟩
    rw [List.mem_filter, ha.signalByName hs]
    exact ⟨hm, by simpa using hb⟩
  have hcar : s.carrier sig.name = some fr.name := by
    unfold System.carrier
    rw [find_key ha.carried hmem]
    rfl
  have h := ha.carrier sig hs
  unfold System.checkCarrier at h
  rw [hb, if_pos hsome, hcar] at h
  dsimp only at h
  split_ifs at h with hne
  exact ⟨hne, by simpa using h⟩

/-- The producer of a signal is a node of its bus that does not read it. -/
theorem producer {sig : SysSignal} (hs : sig ∈ s.signals) :
    ∃ p ∈ s.nodes, p.name = sig.producer ∧ sig.name ∉ p.fbReads ∧ sig.bus ∈ p.buses ∧
      (sig.frame ≠ "" → s.frameOwner sig.bus sig.frame = some sig.producer) ∧
      ∀ f ∈ sig.fields, f.1 ≠ "status" ∧ f.1 ≠ "lost" := by
  have h := ha.signal sig hs
  unfold System.checkSignal at h
  rw [List.append_eq_nil_iff] at h
  obtain ⟨hf, h⟩ := h
  cases hp : s.nodes.find? (·.name = sig.producer) with
  | none =>
    rw [hp] at h
    cases h
  | some p =>
    rw [hp] at h
    simp only [List.append_eq_nil_iff, issueIf_eq_nil] at h
    obtain ⟨⟨hr, hb⟩, ho⟩ := h
    refine ⟨p, List.mem_of_find?_eq_some hp, by simpa using List.find?_some hp, hr, not_not.mp hb,
      fun hne => ?_, fun f hfm => ?_⟩
    · by_contra hcon
      exact ho ⟨hne, hcon⟩
    · have := List.flatMap_eq_nil_iff.mp hf f hfm
      rw [issueIf_eq_nil] at this
      exact ⟨fun h => this (.inr (.inl h)), fun h => this (.inr (.inr h))⟩

/-- The signals of an event have one producer. -/
theorem producers_eq {fr : SysFrame} (hfr : fr ∈ s.frames) {a b : SysSignal} (has : a ∈ s.signals)
    (hbs : b ∈ s.signals) (ham : a.name ∈ fr.signals) (hbm : b.name ∈ fr.signals)
    (hab : a.bus = fr.bus) (hbb : b.bus = fr.bus) : a.producer = b.producer := by
  obtain ⟨hane, haf⟩ := ha.signal_frame hfr has ham hab
  obtain ⟨hbne, hbf⟩ := ha.signal_frame hfr hbs hbm hbb
  obtain ⟨-, -, -, -, -, hoa, -⟩ := ha.producer has
  obtain ⟨-, -, -, -, -, hob, -⟩ := ha.producer hbs
  have h₁ := hoa hane
  have h₂ := hob hbne
  rw [hab, haf] at h₁
  rw [hbb, hbf, h₁] at h₂
  exact Option.some.inj h₂

/-- The node that produces an event: a member of the segment, and the producer of each of its
signals. -/
theorem event_producer {fr : SysFrame} (hfr : fr ∈ s.frames) :
    ∃ p ∈ s.someipMembers fr.bus, s.someipEventProducer fr = p.name ∧
      ∀ sg ∈ fr.signals, ∃ sig ∈ s.signals, s.signalByName sg = some sig ∧ sig.name = sg ∧
        sig.bus = fr.bus ∧ sig.producer = p.name := by
  obtain ⟨-, hne, hall⟩ := ha.event hfr
  have hprod : ∃ sg ∈ fr.signals, ∃ sig ∈ s.signals, s.signalByName sg = some sig ∧
      sig.name = sg ∧ sig.bus = fr.bus ∧ s.someipEventProducer fr = sig.producer := by
    obtain ⟨sg, l, hl⟩ := List.exists_cons_of_ne_nil hne
    have hsg : sg ∈ fr.signals := by
      rw [hl]
      exact List.mem_cons_self
    obtain ⟨sig, hs, hby, hname, hb⟩ := hall sg hsg
    refine ⟨sg, hsg, sig, hs, hby, hname, hb, ?_⟩
    unfold System.someipEventProducer
    rw [hl, List.findSome?_cons, hby]
  obtain ⟨sg, hsg, sig, hs, -, hname, hb, hp⟩ := hprod
  obtain ⟨p, hpn, hpname, -, hpb, -⟩ := ha.producer hs
  obtain ⟨hbad, hhost⟩ := ha.hosts p hpn
  refine ⟨p, ?_, by rw [hp, hpname], fun x hx => ?_⟩
  · unfold System.someipMembers
    rw [List.mem_filter]
    refine ⟨hpn, ?_⟩
    have hip : p.ipHost = false := by
      by_contra hcon
      refine hhost (by simpa using hcon) sig hs ⟨hpb, ?_, .inl hpname.symm⟩
      rw [hb]
      exact ha.isSomeipBus hfr
    rw [hb] at hpb
    simp [Node.outsideService, hbad, hip, hpb]
  · obtain ⟨sig', hs', hby', hname', hb'⟩ := hall x hx
    refine ⟨sig', hs', hby', hname', hb', ?_⟩
    rw [hpname]
    exact ha.producers_eq hfr hs' hs (by rw [hname']; exact hx) (by rw [hname]; exact hsg) hb' hb

theorem segment_of {fr : SysFrame} (hfr : fr ∈ s.frames) :
    (∀ fr' ∈ s.frames, fr'.bus = fr.bus → fr'.name = fr.name → fr' = fr) ∧
    (∀ n ∈ s.nodes, fr.bus ∈ n.buses → n.hasEndpoint = true) ∧
    2 ≤ (s.someipMembers fr.bus).length ∧
    s.checkEvent (s.someipMembers fr.bus) fr = [] := by
  obtain ⟨⟨b, hb, hname, hk, -⟩, -⟩ := ha.event hfr
  have h := ha.segment b hb hk
  unfold System.checkSegment at h
  simp only [List.append_eq_nil_iff, hname] at h
  obtain ⟨⟨hrep, hend⟩, h⟩ := h
  refine ⟨fun fr' hfr' hbus hn => ?_, fun n hn hbn => ?_, ?_, ?_⟩
  · exact eq_of_key (repeats_eq_nil hrep).1 (List.mem_filter.mpr ⟨hfr', by simpa using hbus⟩)
      (List.mem_filter.mpr ⟨hfr, by simp⟩) (by rw [hn])
  · have hn' := List.flatMap_eq_nil_iff.mp hend n
      (List.mem_filter.mpr ⟨hn, by simpa using hbn⟩)
    split_ifs at hn' with hc
    · exact n.hosted hc.1
    · rw [issueIf_eq_nil] at hn'
      by_contra hcon
      exact hn' (.inl hcon)
  · split_ifs at h with hlt
    exact Nat.le_of_not_lt hlt
  · split_ifs at h with hlt
    rw [List.append_eq_nil_iff] at h
    exact List.flatMap_eq_nil_iff.mp h.1 fr (List.mem_filter.mpr ⟨hfr, by simp⟩)

/-- The node that receives an event: the one other member that reads any of its signals, and it reads
them all. -/
theorem event_receiver {fr : SysFrame} (hfr : fr ∈ s.frames) :
    ∃ r ∈ s.someipMembers fr.bus, s.someipEventReceivers fr = [r.name] ∧
      r.name ≠ s.someipEventProducer fr ∧ ∀ sg ∈ fr.signals, sg ∈ r.fbReads := by
  obtain ⟨-, hne, -⟩ := ha.event hfr
  obtain ⟨p, hpm, hp, -⟩ := ha.event_producer hfr
  obtain ⟨-, -, -, h⟩ := ha.segment_of hfr
  have hpn : p ∈ s.nodes := (List.mem_filter.mp hpm).1
  unfold System.checkEvent at h
  rw [if_neg (by rw [hp]; exact fun hc => hc.elim hne (ha.name_ne hpn))] at h
  -- the receivers are members other than the producer
  have hsub : ∀ x ∈ s.someipEventReceivers fr,
      ∃ r ∈ s.someipMembers fr.bus, r.name = x ∧ r.name ≠ s.someipEventProducer fr := by
    intro x hx
    unfold System.someipEventReceivers at hx
    dsimp only at hx
    split_ifs at hx
    · obtain ⟨r, hr, rfl⟩ := List.mem_map.mp hx
      obtain ⟨hrm, hrp⟩ := List.mem_filter.mp hr
      exact ⟨r, hrm, rfl, by simpa using hrp⟩
    · obtain ⟨r, hr, rfl⟩ := List.mem_map.mp hx
      obtain ⟨hrm, hrp⟩ := List.mem_filter.mp hr
      refine ⟨r, hrm, rfl, ?_⟩
      simp only [decide_eq_true_eq] at hrp
      exact hrp.1
  rcases hrec : s.someipEventReceivers fr with _ | ⟨x, _ | ⟨y, l⟩⟩
  · rw [hrec] at h
    cases h
  · rw [hrec] at h hsub
    obtain ⟨r, hrm, hrn, hrp⟩ := hsub x List.mem_cons_self
    refine ⟨r, hrm, by rw [hrn], hrp, fun sg hsg => ?_⟩
    have hr := List.flatMap_eq_nil_iff.mp h r (List.mem_filter.mpr ⟨hrm, by simpa using hrn⟩)
    simpa using List.flatMap_eq_nil_iff.mp hr sg hsg
  · rw [hrec] at h
    cases h

omit ha in
/-- A member other than the producer that reads a signal of an event is its receiver. -/
theorem reader_receives {fr : SysFrame} {n : Node}
    (hn : n ∈ s.someipMembers fr.bus) (hp : n.name ≠ s.someipEventProducer fr) {sg : String}
    (hsg : sg ∈ fr.signals) (hr : sg ∈ n.fbReads) : n.name ∈ s.someipEventReceivers fr := by
  have hmem : n.name ∈ ((s.someipMembers fr.bus).filter fun n =>
      n.name ≠ s.someipEventProducer fr ∧ fr.signals.any (· ∈ n.fbReads)).map Node.name := by
    refine List.mem_map.mpr ⟨n, List.mem_filter.mpr ⟨hn, ?_⟩, rfl⟩
    simp only [decide_eq_true_eq]
    exact ⟨hp, List.any_eq_true.mpr ⟨sg, hsg, by simpa using hr⟩⟩
  unfold System.someipEventReceivers
  dsimp only
  rw [if_neg]
  · exact hmem
  · intro hc
    rw [hc.1] at hmem
    cases hmem

end Accepted

end BloblyEmb.Someip
