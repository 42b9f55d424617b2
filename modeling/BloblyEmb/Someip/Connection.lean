import BloblyEmb.Someip.Accepted
import BloblyEmb.Someip.Lowering

/-!
# The two ends of an event name each other

The sections of the producer and of the receiver agree on an event: on its identity, on the address
that it is sent to and accepted from, and on the layout of its payload. No other node of the segment
has it.
-/
namespace BloblyEmb.Someip

variable {s : System} {snake : String → String} {others : System → List System.Issue}

/-! ## Layouts -/

theorem foldl_insertField {β : Type} {g : β → String × String → β} {f : String × String}
    (hg : ∀ r, g r f = r) (l : List (String × String)) (r : β) :
    (insertField f l).foldl g r = l.foldl g r := by
  induction l generalizing r with
  | nil => exact hg r
  | cons x l ih =>
    unfold insertField
    split_ifs
    · rw [List.foldl_cons, hg]
    · exact ih _

/-- A field without a width is not on the wire. -/
theorem signalCells_append (fr : FrameTable) (sig : String) (fields : List (String × String))
    {f : String × String} (hf : scalarWidth f.2 = 0) (r : ℕ × List EthLayoutCell) :
    signalCells fr sig (fields ++ [f]) r = signalCells fr sig fields r := by
  unfold signalCells sortFields
  rw [List.foldl_append, List.foldl_cons, List.foldl_nil]
  refine foldl_insertField ?_ _ r
  intro r
  exact if_pos hf

theorem setKey_new {m : List (String × String)} {k v : String} (h : ∀ f ∈ m, f.1 ≠ k) :
    setKey m k v = m ++ [(k, v)] := by
  unfold setKey
  rw [if_neg]
  intro hany
  obtain ⟨f, hf, hk⟩ := List.any_eq_true.mp hany
  exact h f hf (by simpa using hk)

/-- A received signal is on the wire as the signal that was declared. -/
theorem signalCells_wire {t : SignalTable} {sig : SysSignal} (ht : TableOf s t)
    (hs : s.signalByName t.name = some sig)
    (hf : ∀ f ∈ sig.fields, f.1 ≠ "status" ∧ f.1 ≠ "lost") (ft : FrameTable) (sg : String)
    (r : ℕ × List EthLayoutCell) :
    signalCells ft sg t.wireFields r = signalCells ft sg sig.fields r := by
  have hself : sig.fields.filter (fun f => ¬(t.source = ethIface ∧ f.1 = "lost")) = sig.fields :=
    List.filter_eq_self.mpr fun f hfm => by simp [(hf f hfm).2]
  obtain ⟨sig', hs', h⟩ := ht
  rw [hs] at hs'
  cases hs'
  unfold SignalTable.wireFields
  rcases h with h | ⟨hsrc, fr, h⟩
  · rw [h, hself]
  · rw [h]
    unfold System.rxFields
    split_ifs
    · have hlost : ∀ f ∈ sig.fields ++ [("status", "RxStatus")], f.1 ≠ "lost" := by
        intro f hfm
        rcases List.mem_append.mp hfm with hfm | hfm
        · exact (hf f hfm).2
        · rw [List.mem_singleton.mp hfm]
          decide
      rw [setKey_new fun f hfm => (hf f hfm).1, setKey_new hlost, List.filter_append,
        List.filter_append, hself]
      have h₁ : [("status", "RxStatus")].filter
          (fun f : String × String => ¬(t.source = ethIface ∧ f.1 = "lost")) =
            [("status", "RxStatus")] := by simp
      have h₂ : [("lost", "u32")].filter
          (fun f : String × String => ¬(t.source = ethIface ∧ f.1 = "lost")) = [] := by
        simp [hsrc]
      rw [h₁, h₂, List.append_nil]
      exact signalCells_append ft sg sig.fields (by decide) r
    · rw [hself]

/-- The layout of an event by the declarations of its signals alone. -/
def layoutOf (s : System) (ft : FrameTable) : List EthLayoutCell :=
  (ft.signals.foldl (fun r sg =>
    match s.signalByName sg with
    | none => r
    | some sig => signalCells ft sg sig.fields r) (0, [])).2

/-- A node that has a table of each signal of an event derives the layout of the declarations: of two
tables of a signal the later one counts. -/
theorem frameCells_eq (before : List SignalTable) {signals : List SignalTable} {ft : FrameTable}
    (htables : ∀ t ∈ signals, TableOf s t)
    (hf : ∀ sig ∈ s.signals, ∀ f ∈ sig.fields, f.1 ≠ "status" ∧ f.1 ≠ "lost")
    (hall : ∀ sg ∈ ft.signals, ∃ t ∈ signals, t.name = sg) :
    frameCells (before ++ signals) ft = layoutOf s ft := by
  unfold frameCells layoutOf
  congr 1
  refine List.foldl_ext _ _ _ fun r sg hsg => ?_
  obtain ⟨t₀, ht₀, hn₀⟩ := hall sg hsg
  have hsome : (signals.reverse.find? (·.name = sg)).isSome := by
    rw [List.find?_isSome]
    exact ⟨t₀, List.mem_reverse.mpr ht₀, by simpa using hn₀⟩
  obtain ⟨t, ht⟩ := Option.isSome_iff_exists.mp hsome
  have hname : t.name = sg := by simpa using List.find?_some ht
  have htab := htables t (List.mem_reverse.mp (List.mem_of_find?_eq_some ht))
  obtain ⟨sig, hs, -⟩ := id htab
  rw [List.reverse_append, List.find?_append, ht, Option.some_or, ← hname, hs]
  exact signalCells_wire htab hs (hf sig (List.mem_of_find?_eq_some hs)) ft _ r

theorem signalCells_frame {fr : FrameTable} {sig : String} {fields : List (String × String)}
    {r : ℕ × List EthLayoutCell} (h : ∀ c ∈ r.2, c.frame = fr.name) :
    ∀ c ∈ (signalCells fr sig fields r).2, c.frame = fr.name := by
  unfold signalCells
  generalize sortFields fields = l
  induction l generalizing r with
  | nil => exact h
  | cons f l ih =>
    refine ih ?_
    dsimp only
    split_ifs
    · exact h
    · intro c hc
      rcases List.mem_append.mp hc with hc | hc
      · exact h c hc
      · rw [List.mem_singleton.mp hc]

theorem frameCells_frame {signals : List SignalTable} {fr : FrameTable} :
    ∀ c ∈ frameCells signals fr, c.frame = fr.name := by
  unfold frameCells
  have hinit : ∀ c ∈ ((0, []) : ℕ × List EthLayoutCell).2, c.frame = fr.name :=
    fun c hc => by cases hc
  revert hinit
  generalize ((0, []) : ℕ × List EthLayoutCell) = r
  induction fr.signals generalizing r with
  | nil => exact id
  | cons sg l ih =>
    intro h
    refine ih _ ?_
    dsimp only
    split
    · exact h
    · exact signalCells_frame h

/-- The cells of an event are those of its tables. -/
theorem ethLayouts_filter (before : List SignalTable) (sec : Sections) (name : String) :
    (ethLayouts before sec).filter (·.frame = name) =
      (sec.frames.filter (·.name = name)).flatMap (frameCells (before ++ sec.signals)) := by
  unfold ethLayouts
  induction sec.frames with
  | nil => rfl
  | cons t l ih =>
    rw [List.flatMap_cons, List.filter_append, ih]
    by_cases ht : t.name = name
    · rw [List.filter_cons_of_pos (by simpa using ht), List.flatMap_cons]
      congr 1
      exact List.filter_eq_self.mpr fun c hc => by simp [frameCells_frame c hc, ht]
    · rw [List.filter_cons_of_neg (by simpa using ht)]
      have hnil : (frameCells (before ++ sec.signals) t).filter (·.frame = name) = [] :=
        List.filter_eq_nil_iff.mpr fun c hc => by simp [frameCells_frame c hc, ht]
      rw [hnil, List.nil_append]

/-! ## Peers -/

/-- The address that an event goes to, or that it is accepted from: its own, or the one of the
node. -/
def Sections.peerOf (sec : Sections) (t : FrameTable) : Option String :=
  if t.peer = "" then sec.peer else some t.peer

def Node.address (n : Node) : String := n.endpoint ++ ":" ++ toString n.port

theorem Node.address_ne (n : Node) : n.address ≠ "" := by
  intro h
  have hlen := congrArg String.length h
  simp [Node.address] at hlen

theorem Accepted.endpointOf (ha : Accepted s snake) {n : Node} (hn : n ∈ s.nodes)
    (he : n.hasEndpoint = true) : s.endpointOf n.name = some n.address := by
  have hsome : (s.nodes.find? fun m => m.name = n.name ∧ m.hasEndpoint).isSome := by
    rw [List.find?_isSome]
    exact ⟨n, hn, by simp [he]⟩
  obtain ⟨m, hm⟩ := Option.isSome_iff_exists.mp hsome
  have hname : m.name = n.name ∧ m.hasEndpoint = true := by simpa using List.find?_some hm
  have hmn := ha.node_eq (List.mem_of_find?_eq_some hm) hn hname.1
  unfold System.endpointOf
  rw [hm, hmn]
  rfl

/-- The peer of an event is the endpoint of the node's partner in it. -/
theorem Written.peerOf {n m : Node} {bus : Bus} {sec : Sections} (h : Written s n bus sec)
    {fr : SysFrame} (hp : s.someipEventPartner n fr = some m.name)
    (he : s.endpointOf m.name = some m.address) (tx : Bool) :
    sec.peerOf (someipFrameLines fr ethIface tx
      (s.framePeer n fr ((s.someipPartners n bus.name).headD ""))) = some m.address := by
  have hpeer := h.peer
  generalize (s.someipPartners n bus.name).headD "" = d at hpeer ⊢
  unfold Sections.peerOf
  change (if s.framePeer n fr d = "" then sec.peer else some (s.framePeer n fr d)) = _
  by_cases hd : m.name = d
  · have hf : s.framePeer n fr d = "" := by
      unfold System.framePeer
      rw [hp]
      exact if_pos hd
    rw [if_pos hf, hpeer, ← hd, he]
  · have hf : s.framePeer n fr d = m.address := by
      unfold System.framePeer
      rw [hp]
      dsimp only
      rw [if_neg hd, he]
      rfl
    rw [if_neg (by rw [hf]; exact m.address_ne), hf]

/-! ## The nodes of a segment -/

theorem lower_written (ha : Accepted s snake) {n : Node} {sec : Sections}
    (h : s.lower n = .ok (some sec)) :
    n.ipHost = false ∧ ∃ b, b.name ∈ n.buses ∧ Written s n b sec := by
  unfold System.lower at h
  cases hl : (n.buses.filter fun b => s.isSomeipBus b).getLast? with
  | none =>
    rw [hl] at h
    cases h
  | some name =>
    have hmem := List.mem_filter.mp (List.mem_of_getLast? hl)
    cases hb : s.busByName name with
    | none =>
      rw [hl, Option.bind_some, hb] at h
      cases h
    | some b =>
      rw [hl, Option.bind_some, hb] at h
      have hname : b.name = name := by simpa using List.find?_some hb
      refine ⟨?_, b, by rw [hname]; exact hmem.1,
        someipSections_written (fun sig hs => ha.signalByName hs) h⟩
      by_contra hip
      simp only [System.someipSections, Bool.not_eq_false] at hip h
      rw [if_pos hip] at h
      cases h

/-- A member has sections, on the segment of the event. -/
theorem lower_member (ha : Accepted s snake) {fr : SysFrame} (hfr : fr ∈ s.frames) {n : Node}
    (hn : n ∈ s.someipMembers fr.bus) {o : Option Sections} (h : s.lower n = .ok o) :
    ∃ sec b, o = some sec ∧ b.name = fr.bus ∧ Written s n b sec := by
  obtain ⟨hns, hmem⟩ := List.mem_filter.mp hn
  simp only [Node.outsideService, decide_eq_true_eq, Bool.or_eq_true, not_or] at hmem
  obtain ⟨hbus, -, hip⟩ := hmem
  obtain ⟨⟨b, -, hname, -, hb⟩, -⟩ := ha.event hfr
  have hin : fr.bus ∈ n.buses.filter fun b => s.isSomeipBus b :=
    List.mem_filter.mpr ⟨hbus, ha.isSomeipBus hfr⟩
  have hone := ha.single n hns
  have heq : (n.buses.filter fun b => s.isSomeipBus b) = [fr.bus] := by
    rcases hl : n.buses.filter (fun b => s.isSomeipBus b) with _ | ⟨x, _ | ⟨y, l⟩⟩
    · rw [hl] at hin
      cases hin
    · rw [hl] at hin
      rw [List.mem_singleton.mp hin]
    · rw [hl] at hone
      simp at hone
  unfold System.lower at h
  rw [heq] at h
  simp only [List.getLast?_singleton, Option.bind_some, hb] at h
  cases o with
  | none =>
    unfold System.someipSections at h
    rw [if_neg hip] at h
    dsimp only at h
    split at h
    · cases h
    · cases h
  | some sec =>
    exact ⟨sec, b, rfl, hname, someipSections_written (fun sig hs => ha.signalByName hs) h⟩

/-- The one table of an event that a node has a reason to write. -/
theorem Written.table (ha : Accepted s snake) {n : Node} {b : Bus} {sec : Sections}
    (h : Written s n b sec) {fr : SysFrame} (hfr : fr ∈ s.frames) (hb : b.name = fr.bus)
    {t : FrameTable} (ht : t ∈ sec.frames) (hname : t.name = fr.name) :
    ∃ tx, t = someipFrameLines fr ethIface tx
      (s.framePeer n fr ((s.someipPartners n b.name).headD "")) ∧ Ends s n fr tx ∧
      (tx = false → ∀ sg ∈ fr.signals, (s.signalByName sg).isSome →
        ∃ t ∈ sec.signals, t.name = sg ∧ t.source = ethIface) := by
  obtain ⟨fr', hfr', hb', tx, hteq, hends⟩ := h.frames t ht
  have hsame : fr' = fr := by
    refine (ha.segment_of hfr).1 fr' hfr' (by rw [hb', hb]) ?_
    rw [hteq] at hname
    exact hname
  rw [hsame] at hteq hends
  exact ⟨tx, hteq, hends⟩

/-- Its name is in a list of names without repetition: the tables of that name are one. -/
theorem filter_name {l : List FrameTable} (hn : (l.map FrameTable.name).Nodup) {t : FrameTable}
    (ht : t ∈ l) : l.filter (·.name = t.name) = [t] := by
  induction l with
  | nil => cases ht
  | cons x l ih =>
    rw [List.map_cons, List.nodup_cons] at hn
    rcases List.mem_cons.mp ht with rfl | ht
    · rw [List.filter_cons_of_pos (by simp)]
      congr 1
      refine List.filter_eq_nil_iff.mpr fun y hy => ?_
      intro he
      exact hn.1 (List.mem_map.mpr ⟨y, hy, by simpa using he⟩)
    · rw [List.filter_cons_of_neg]
      · exact ih hn.2 ht
      · intro he
        refine hn.1 (List.mem_map.mpr ⟨t, ht, ?_⟩)
        simpa using (Eq.symm (by simpa using he) : t.name = x.name)

/-- A node writes an event as its producer when it sends it and as a receiver otherwise. -/
theorem Ends.role (ha : Accepted s snake) {fr : SysFrame} (hfr : fr ∈ s.frames) {n : Node}
    (hn : n ∈ s.nodes) (hb : fr.bus ∈ n.buses) (hip : n.ipHost = false) {tx : Bool}
    (he : Ends s n fr tx) :
    tx = true ∧ n.name = s.someipEventProducer fr ∨
      tx = false ∧ n.name ∈ s.someipEventReceivers fr := by
  obtain ⟨p, -, hprod, hall⟩ := ha.event_producer hfr
  cases he with
  | sends sig hs hp hc =>
    obtain ⟨sig', -, hby, -, -, hprod'⟩ := hall _ hc
    rw [ha.signalByName hs] at hby
    cases hby
    exact .inl ⟨rfl, by rw [hprod, ← hp, hprod']⟩
  | receives name sig hr hs hp hc =>
    obtain ⟨sig', -, hby, -, -, hprod'⟩ := hall _ hc
    rw [hs] at hby
    cases hby
    have hmem : n ∈ s.someipMembers fr.bus := by
      refine List.mem_filter.mpr ⟨hn, ?_⟩
      simp [Node.outsideService, (ha.hosts n hn).1, hip, hb]
    have hother : n.name ≠ s.someipEventProducer fr := by
      rw [hprod]
      exact fun h => hp (by rw [hprod', h])
    exact .inr ⟨rfl, Accepted.reader_receives hmem hother hc hr⟩

/-- A node that names an event in its sections has one table of it. -/
theorem Written.entry (ha : Accepted s snake) {n : Node} {b : Bus} {sec : Sections}
    (h : Written s n b sec) {fr : SysFrame} (hfr : fr ∈ s.frames) (hb : b.name = fr.bus)
    (hm : fr.name ∈ sec.frames.map FrameTable.name) :
    ∃ t tx, sec.frames.filter (·.name = fr.name) = [t] ∧ t = someipFrameLines fr ethIface tx
      (s.framePeer n fr ((s.someipPartners n b.name).headD "")) ∧ Ends s n fr tx ∧
      (tx = false → ∀ sg ∈ fr.signals, (s.signalByName sg).isSome →
        ∃ t ∈ sec.signals, t.name = sg ∧ t.source = ethIface) := by
  obtain ⟨t, ht, hname⟩ := List.mem_map.mp hm
  obtain ⟨tx, heq, he, hdecl⟩ := h.table ha hfr hb ht hname
  refine ⟨t, tx, ?_, heq, he, hdecl⟩
  rw [← hname]
  exact filter_name h.nodup ht

/-- The sections of two nodes hold the two ends of an event, in one table each. -/
structure Connected (fr : SysFrame) (p r : Node) (secP secR : Sections) (tP tR : FrameTable) :
    Prop where
  segment : secP.segment = fr.bus ∧ secR.segment = fr.bus
  sent : secP.frames.filter (·.name = fr.name) = [tP]
  received : secR.frames.filter (·.name = fr.name) = [tR]
  /-- The producer sends to the receiver's endpoint, the receiver accepts from the producer's. -/
  goesTo : secP.peerOf tP = some r.address
  comesFrom : secR.peerOf tR = some p.address
  id : tP.id = fr.id ∧ tR.id = fr.id
  order : tP.signals = fr.signals ∧ tR.signals = fr.signals
  e2e : (tP.e2e.map fun e => (e.dataId, e.counterPos, e.crcPos)) =
    tR.e2e.map fun e => (e.dataId, e.counterPos, e.crcPos)
  sends : ∀ sg ∈ fr.signals, ∃ t ∈ secP.signals, t.name = sg ∧ t.target = ethIface
  declares : ∀ sg ∈ fr.signals, ∃ t ∈ secR.signals, t.name = sg ∧ t.source = ethIface
  /-- Whatever signals each node has on its other buses. -/
  layout : ∀ beforeP beforeR, (ethLayouts beforeP secP).filter (·.frame = fr.name) =
    (ethLayouts beforeR secR).filter (·.frame = fr.name)

/-- In an accepted system that is lowered, an event is in the sections of its producer and of its
one receiver, where the two ends name each other, and in those of no other node of the segment. -/
theorem event_connects (hok : s.validateSystemGen snake others = [])
    (l : Node → Option Sections) (hl : ∀ n ∈ s.nodes, s.lower n = .ok (l n)) {fr : SysFrame}
    (hfr : fr ∈ s.frames) :
    ∃ p ∈ s.nodes, ∃ r ∈ s.nodes, p.name ≠ r.name ∧
      (∀ sg ∈ fr.signals, ∃ sig, s.signalByName sg = some sig ∧ sig.producer = p.name) ∧
      s.someipEventReceivers fr = [r.name] ∧
      (∃ secP secR tP tR, l p = some secP ∧ l r = some secR ∧
        Connected fr p r secP secR tP tR) ∧
      ∀ n ∈ s.nodes, ∀ sec, l n = some sec → sec.segment = fr.bus →
        ∀ t ∈ sec.frames, t.name = fr.name → n = p ∨ n = r := by
  have ha := accepted_of_ok hok
  obtain ⟨-, hne, -⟩ := ha.event hfr
  obtain ⟨p, hpm, hprod, hall⟩ := ha.event_producer hfr
  obtain ⟨r, hrm, hrec, hrp, hreads⟩ := ha.event_receiver hfr
  have hpn : p ∈ s.nodes := (List.mem_filter.mp hpm).1
  have hrn : r ∈ s.nodes := (List.mem_filter.mp hrm).1
  rw [hprod] at hrp
  obtain ⟨-, hend, -, -⟩ := ha.segment_of hfr
  have hbus : ∀ n ∈ s.someipMembers fr.bus, fr.bus ∈ n.buses := fun n hn => by
    have := (List.mem_filter.mp hn).2
    simp only [decide_eq_true_eq] at this
    exact this.1
  obtain ⟨sg₀, tail, hcons⟩ := List.exists_cons_of_ne_nil hne
  have hsg₀ : sg₀ ∈ fr.signals := by
    rw [hcons]
    exact List.mem_cons_self
  -- why a node writes the event tells which of the two it is
  have hwhy : ∀ n ∈ s.nodes, fr.bus ∈ n.buses → n.ipHost = false → ∀ tx, Ends s n fr tx →
      tx = true ∧ n = p ∨ tx = false ∧ n = r := by
    intro n hn hb hip tx he
    rcases he.role ha hfr hn hb hip with ⟨htx, h⟩ | ⟨htx, h⟩
    · rw [hprod] at h
      exact .inl ⟨htx, ha.node_eq hn hpn h⟩
    · rw [hrec] at h
      exact .inr ⟨htx, ha.node_eq hn hrn (List.mem_singleton.mp h)⟩
  obtain ⟨secP, bP, hlP, hbP, hwP⟩ := lower_member ha hfr hpm (hl p hpn)
  obtain ⟨secR, bR, hlR, hbR, hwR⟩ := lower_member ha hfr hrm (hl r hrn)
  have hiP : p.ipHost = false := (lower_written ha (by rw [hl p hpn, hlP])).1
  have hiR : r.ipHost = false := (lower_written ha (by rw [hl r hrn, hlR])).1
  have hpr : p ≠ r := fun h => hrp (by rw [h])
  -- the table at each end
  have hmP : fr.name ∈ secP.frames.map FrameTable.name := by
    obtain ⟨sig, hs, -, hname, hb, hp⟩ := hall sg₀ hsg₀
    exact (hwP.produced sig hs (by rw [hb, hbP]) hp).2 fr hfr (by rw [hbP])
      (by rw [hname]; exact hsg₀)
  have hmR : fr.name ∈ secR.frames.map FrameTable.name := by
    obtain ⟨sig, hs, hby, -, hb, hp⟩ := hall sg₀ hsg₀
    exact hwR.read sg₀ (hreads sg₀ hsg₀) sig hby (by rw [hb, hbR])
      (by rw [hp]; exact fun h => hrp h.symm) fr hfr (by rw [hbR]) hsg₀
  obtain ⟨tP, txP, hfP, heqP, heP, -⟩ := hwP.entry ha hfr hbP hmP
  obtain ⟨tR, txR, hfR, heqR, heR, hdecl⟩ := hwR.entry ha hfr hbR hmR
  have htxP : txP = true := by
    rcases hwhy p hpn (hbus p hpm) hiP txP heP with h | h
    · exact h.1
    · exact absurd h.2 hpr
  have htxR : txR = false := by
    rcases hwhy r hrn (hbus r hrm) hiR txR heR with h | h
    · exact absurd h.2.symm hpr
    · exact h.1
  subst htxP htxR
  have hpartP : s.someipEventPartner p fr = some r.name := by
    unfold System.someipEventPartner
    simp only [hprod, hrec, if_true]
  have hpartR : s.someipEventPartner r fr = some p.name := by
    unfold System.someipEventPartner
    simp only [hprod, hrec]
    rw [if_neg fun h => hrp h.symm, if_pos ⟨List.mem_cons_self, ha.name_ne hpn⟩]
  have hsends : ∀ sg ∈ fr.signals, ∃ t ∈ secP.signals, t.name = sg ∧ t.target = ethIface := by
    intro sg hsg
    obtain ⟨sig, hs, -, hname, hb, hp⟩ := hall sg hsg
    obtain ⟨t, ht, h⟩ := (hwP.produced sig hs (by rw [hb, hbP]) hp).1
    exact ⟨t, ht, by rw [h.1, hname], h.2⟩
  have hdeclares : ∀ sg ∈ fr.signals, ∃ t ∈ secR.signals, t.name = sg ∧ t.source = ethIface := by
    intro sg hsg
    obtain ⟨sig, -, hby, -⟩ := hall sg hsg
    exact hdecl rfl sg hsg (by rw [hby]; rfl)
  have hfields : ∀ sig ∈ s.signals, ∀ f ∈ sig.fields, f.1 ≠ "status" ∧ f.1 ≠ "lost" := by
    intro sig hs
    obtain ⟨-, -, -, -, -, -, hf⟩ := ha.producer hs
    exact hf
  refine ⟨p, hpn, r, hrn, fun h => hrp h.symm, fun sg hsg => ?_, hrec,
    ⟨secP, secR, tP, tR, hlP, hlR, ⟨by rw [hwP.segment, hbP], by rw [hwR.segment, hbR]⟩, hfP, hfR,
      ?_, ?_, ?_, ?_, ?_, hsends, hdeclares, ?_⟩, fun n hn sec hsec hseg t ht hname => ?_⟩
  · obtain ⟨sig, -, hby, -, -, hp⟩ := hall sg hsg
    exact ⟨sig, hby, hp⟩
  · rw [heqP]
    exact hwP.peerOf hpartP (ha.endpointOf hrn (hend r hrn (hbus r hrm))) true
  · rw [heqR]
    exact hwR.peerOf hpartR (ha.endpointOf hpn (hend p hpn (hbus p hpm))) false
  · rw [heqP, heqR]
    exact ⟨rfl, rfl⟩
  · rw [heqP, heqR]
    exact ⟨rfl, rfl⟩
  · rw [heqP, heqR]
    cases hE : fr.e2e <;> simp [someipFrameLines, hE]
  · intro beforeP beforeR
    rw [ethLayouts_filter, ethLayouts_filter, hfP, hfR, List.flatMap_cons, List.flatMap_cons,
      frameCells_eq beforeP hwP.tables hfields, frameCells_eq beforeR hwR.tables hfields, heqP, heqR]
    · rfl
    · intro sg hsg
      rw [heqR] at hsg
      obtain ⟨t, ht, h⟩ := hdeclares sg hsg
      exact ⟨t, ht, h.1⟩
    · intro sg hsg
      rw [heqP] at hsg
      obtain ⟨t, ht, h⟩ := hsends sg hsg
      exact ⟨t, ht, h.1⟩
  · obtain ⟨hip, b, hb, hw⟩ := lower_written ha (by rw [hl n hn, hsec])
    have hbn : b.name = fr.bus := by rw [← hw.segment, hseg]
    obtain ⟨tx, -, he, -⟩ := hw.table ha hfr hbn ht hname
    rw [hbn] at hb
    rcases hwhy n hn hb hip tx he with h | h
    · exact .inl h.2
    · exact .inr h.2

def levelEvent : SysFrame where
  name := "LevelEvent"
  bus := "tel"
  id := 0x8002
  signals := ["level"]
  e2e := some ⟨7, 1, 2, some 500⟩

/-- Three members of a segment, with two events that the first of them receives. -/
def star : System where
  buses := [{ name := "tel", kind := "someip", service := 0x1234, version := 1 }]
  nodes :=
    [{ name := "tester", buses := ["tel"], hasEndpoint := true, endpoint := "10.0.0.1",
       port := 30490, fbReads := ["speed", "level"], hosted := fun _ => rfl },
     { name := "tcu", buses := ["tel"], hasEndpoint := true, endpoint := "10.0.0.2",
       port := 30490, writer := fun _ => some "app", hosted := fun _ => rfl },
     { name := "hub", buses := ["tel"], hasEndpoint := true, endpoint := "10.0.0.3",
       port := 30490, writer := fun _ => some "app", hosted := fun _ => rfl }]
  signals :=
    [⟨"speed", "tel", "tcu", "SpeedEvent", [("value", "u16")]⟩,
     ⟨"level", "tel", "hub", "LevelEvent", [("value", "u8")]⟩]
  frames :=
    [{ name := "SpeedEvent", bus := "tel", id := 0x8001, signals := ["speed"] },
     levelEvent]
  named := by decide

/-- What a node of the star is lowered into. -/
def starSections (n : Node) : Option Sections := (star.lower n).toOption.join

theorem event_connects_star : ∃ p ∈ star.nodes, ∃ r ∈ star.nodes, p.name ≠ r.name ∧
    ∃ secP secR tP tR, starSections p = some secP ∧ starSections r = some secR ∧
      Connected levelEvent p r secP secR tP tR := by
  have hok : star.validateSystemGen id (fun _ => []) = [] := by decide
  have hl : ∀ n ∈ star.nodes, star.lower n = .ok (starSections n) := by
    intro n hn
    simp only [star, List.mem_cons, List.not_mem_nil, or_false] at hn
    rcases hn with rfl | rfl | rfl <;> rfl
  have hfr : levelEvent ∈ star.frames := List.mem_cons_of_mem _ List.mem_cons_self
  obtain ⟨p, hp, r, hr, hne, -, -, h, -⟩ := event_connects hok starSections hl hfr
  exact ⟨p, hp, r, hr, hne, h⟩

end BloblyEmb.Someip
