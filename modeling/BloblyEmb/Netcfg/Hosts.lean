import BloblyEmb.Netcfg.Subnet
import Mathlib.Data.List.Induction

/-!
# The hosts of a system

An endpoint that gives a host number gets its address from the subnet of its segment, or from the one
that is set in its place for a bench (`tools/sysmodel/subnet.v`, `resolve_hosts`).
-/
namespace BloblyEmb.Netcfg

open Candb.Dbc (Text)

structure Bus where
  name : Text
  kind : Text
  hasSubnet : Bool
  subnet : Text

structure Node where
  name : Text
  buses : List Text
  hasEndpoint : Bool
  hasAddress : Bool
  hasHost : Bool
  hostInt : Bool
  hostRaw : Int
  endpoint : Text
  endpointNetmask : Option Text
  endpointGateway : Option Text
  netmaskFromSubnet : Bool

structure System where
  buses : List Bus
  nodes : List Node
  subnetOverride : Text
  subnetErrs : List Text
  subnetApplied : Bool

def subnetEnv : Text := "BLOB_NET_SUBNET".toList

/-! ## The segments -/

/-- The subnets by bus, the buses whose subnet is refused, and what is recorded. -/
structure Segments where
  subnets : Text → Option Subnet
  broken : List Text
  errs : List Text

namespace Segments

def refuse (g : Segments) (b : Bus) (msgs : List Text) : Segments :=
  { g with broken := g.broken ++ [b.name], errs := g.errs ++ msgs }

def put (g : Segments) (b : Bus) (sub : Subnet) : Segments :=
  { g with subnets := Function.update g.subnets b.name (some sub) }

end Segments

def segmentStep (override : Text) (moved : Option Subnet) (g : Segments) (b : Bus) : Segments :=
  let named := "bus ".toList ++ quoted b.name ++ ": ".toList
  if b.kind ≠ "someip".toList then
    g.refuse b [named ++ "`subnet` is a someip segment's; a CAN bus has no addresses".toList]
  else if override ≠ [] then
    match moved with
    | some m => g.put b m
    | none => g.refuse b []
  else
    match parseSubnet b.subnet with
    | .ok sub => g.put b sub
    | .error e => g.refuse b [named ++ e]

/-- The override, read once whichever bus it stands in for. -/
def readOverride (override : Text) (declared : List Bus) : Option Subnet × List Text :=
  if override ≠ [] ∧ declared.length = 1 then
    match parseSubnet override with
    | .ok m => (some m, [])
    | .error e => (none, [subnetEnv ++ ": ".toList ++ e])
  else (none, [])

def segments (override : Text) (declared : List Bus) : Segments :=
  let moved := readOverride override declared
  declared.foldl (segmentStep override moved.1)
    { subnets := fun _ => none, broken := [], errs := moved.2 }

/-! ## The nodes -/

/-- A node after its turn, what is recorded, and whether its address came from the subnet. -/
structure Resolved where
  node : Node
  errs : List Text
  applied : Bool

def resolveNode (g : Segments) (n : Node) : Resolved :=
  let on := n.buses.filter fun b => (g.subnets b).isSome
  let named := "node ".toList ++ quoted n.name ++ ": ".toList
  let kept (errs : List Text) : Resolved := { node := n, errs := errs, applied := false }
  if n.hasEndpoint = false then kept []
  else if n.hasAddress ∧ n.hasHost then
    kept [named ++ "endpoint gives both `address` and `host` — one or the other".toList]
  else if n.hasAddress then
    match on with
    | [] => kept []
    | b :: _ => kept [named ++ "bus ".toList ++ quoted b ++ (" states its subnet, so the endpoint gives " ++
        "`host`, not `address` — an address would not follow the subnet (or ").toList ++ subnetEnv ++
        ") when it moves".toList]
  else if n.hasHost = false then kept []
  else if n.buses.any (· ∈ g.broken) then kept []
  else
    match on with
    | [] => kept [named ++ ("endpoint `host` needs a someip bus with a `subnet` to be a host of — give " ++
        "`address` instead").toList]
    | _ :: _ :: _ => kept [named ++ "endpoint `host` is ambiguous — buses ".toList ++
        (", ".toList).intercalate (on.map quoted) ++ " each state a subnet".toList]
    | [b] =>
      let sub := (g.subnets b).getD { network := 0, prefixLen := 0 }
      let at_ := " on ".toList ++ sub.str ++ " (bus ".toList ++ quoted b ++ ")".toList
      if n.hostInt = false ∨ n.hostRaw < 1 ∨ sub.hosts.toNat < n.hostRaw then
        kept [named ++ "endpoint `host` must be an integer 1..".toList ++ decimal sub.hosts.toNat ++ at_]
      else if n.hostRaw = 1 then
        kept [named ++ "endpoint `host` 1 is the subnet's gateway".toList ++ at_ ++
          " — every node is brought up with .1 as its gateway".toList]
      else if n.endpointNetmask.isSome ∨ n.endpointGateway.isSome then
        kept [named ++ "endpoint `netmask` and `gateway` are the subnet's on bus ".toList ++ quoted b ++
          " (".toList ++ sub.str ++ ", gateway .1) — drop them".toList]
      else
        let n := { n with endpoint := dotted (sub.network ||| BitVec.ofInt 32 n.hostRaw) }
        let n := if sub.prefixLen ≠ 24 then
            { n with endpointNetmask := some (dotted sub.mask), netmaskFromSubnet := true }
          else n
        { node := n, errs := [], applied := true }

/-- The segments on which some member gives its host. -/
def usedBy (g : Segments) (n : Node) : List Text :=
  if n.hasEndpoint && n.hasHost then n.buses.filter fun b => (g.subnets b).isSome else []

def unread (g : Segments) (used : List Text) (b : Bus) : List Text :=
  if (g.subnets b.name).isSome ∧ b.name ∉ used then
    ["bus ".toList ++ quoted b.name ++ (": states a `subnet`, but no member's endpoint gives a `host` " ++
      "on it — it (and ").toList ++ subnetEnv ++ ") would move nothing".toList]
  else []

def resolveHosts (s : System) (override : Text) : System :=
  let s := { s with subnetOverride := override }
  let declared := s.buses.filter (·.hasSubnet)
  if override ≠ [] ∧ 1 < declared.length then
    { s with subnetErrs := s.subnetErrs ++ [subnetEnv ++ " replaces THE segment subnet, but buses ".toList ++
      (", ".toList).intercalate (declared.map fun b => quoted b.name) ++ " each declare one".toList] }
  else
    let g := segments override declared
    let rs := s.nodes.map (resolveNode g)
    let used := s.nodes.flatMap (usedBy g)
    { s with
      nodes := rs.map (·.node)
      subnetErrs := s.subnetErrs ++ g.errs ++ rs.flatMap (·.errs) ++ declared.flatMap (unread g used)
      subnetApplied := rs.foldl (fun a r => if r.applied then decide (override ≠ []) else a)
        s.subnetApplied }

/-! ## What a segment's subnet is -/

/-- The subnet of a bus: of the last that declares one under this name, the override in its place. -/
def segmentSubnet (s : System) (override name : Text) : Option Subnet :=
  match (s.buses.filter (·.hasSubnet)).reverse.find? (·.name = name) with
  | none => none
  | some b =>
    match parseSubnet (if override = [] then b.subnet else override) with
    | .ok sub => some sub
    | .error _ => none

/-- What one bus adds where nothing is recorded. -/
theorem segmentStep_clean {override : Text} {moved : Option Subnet} {g : Segments} {b : Bus}
    (hmoved : override ≠ [] → ∃ m, moved = some m ∧ parseSubnet override = .ok m)
    (h : (segmentStep override moved g b).errs = []) :
    g.errs = [] ∧ ∃ sub, parseSubnet (if override = [] then b.subnet else override) = .ok sub ∧
      segmentStep override moved g b = g.put b sub := by
  dsimp only [segmentStep] at h ⊢
  by_cases hkind : b.kind = "someip".toList
  · rw [if_neg (not_not.mpr hkind)] at h ⊢
    by_cases hover : override = []
    · rw [if_neg (not_not.mpr hover)] at h ⊢
      rw [if_pos hover]
      cases hparse : parseSubnet b.subnet with
      | ok sub =>
        rw [hparse] at h
        exact ⟨h, sub, rfl, rfl⟩
      | error e =>
        rw [hparse] at h
        simp [Segments.refuse] at h
    · obtain ⟨m, rfl, hm⟩ := hmoved hover
      rw [if_pos hover] at h ⊢
      rw [if_neg hover]
      exact ⟨h, m, hm, rfl⟩
  · rw [if_pos hkind] at h
    simp [Segments.refuse] at h

/-- Where nothing is recorded, the map holds each bus's subnet and no bus is refused. -/
theorem segments_clean {s : System} {override : Text}
    (hone : ¬ (override ≠ [] ∧ 1 < (s.buses.filter (·.hasSubnet)).length))
    (h : (segments override (s.buses.filter (·.hasSubnet))).errs = []) :
    (segments override (s.buses.filter (·.hasSubnet))).broken = [] ∧
    ∀ name, (segments override (s.buses.filter (·.hasSubnet))).subnets name =
      segmentSubnet s override name := by
  unfold segmentSubnet
  generalize s.buses.filter (·.hasSubnet) = declared at hone h ⊢
  have herrs : (readOverride override declared).2 = [] ∧ (declared ≠ [] → override ≠ [] →
      ∃ m, (readOverride override declared).1 = some m ∧ parseSubnet override = .ok m) := by
    have mono : ∀ (l : List Bus) (g : Segments) (moved : Option Subnet),
        (l.foldl (segmentStep override moved) g).errs = [] → g.errs = [] := by
      intro l
      induction l with
      | nil => exact fun g moved hg => hg
      | cons b l ih =>
        intro g moved hg
        have hstep := ih _ _ hg
        dsimp only [segmentStep] at hstep
        repeat' split at hstep
        all_goals simp_all [Segments.refuse, Segments.put]
    have hread := mono _ _ _ h
    refine ⟨hread, fun hne hover => ?_⟩
    have hlen : declared.length = 1 := by
      have hpos := List.length_pos_iff.mpr hne
      rw [not_and, not_lt] at hone
      have := hone hover
      omega
    simp only [readOverride, if_pos (And.intro hover hlen)] at hread ⊢
    cases hparse : parseSubnet override with
    | ok m => exact ⟨m, rfl, rfl⟩
    | error e => simp [hparse] at hread
  obtain ⟨hread, hmoved⟩ := herrs
  unfold segments at h ⊢
  generalize hr : readOverride override declared = r at h hread hmoved ⊢
  clear hone hr
  induction declared using List.reverseRecOn with
  | nil => exact ⟨rfl, fun name => rfl⟩
  | append_singleton l b ih =>
    dsimp only at h ih ⊢
    rw [List.foldl_append, List.foldl_cons, List.foldl_nil] at h ⊢
    have hm := hmoved (by simp)
    obtain ⟨hg, sub, hsub, hput⟩ := segmentStep_clean hm h
    obtain ⟨ihb, ihs⟩ := ih hg (fun _ => hm)
    rw [hput]
    refine ⟨ihb, fun name => ?_⟩
    rw [List.reverse_append, List.reverse_singleton, List.singleton_append, List.find?_cons]
    by_cases hname : b.name = name
    · subst hname
      simp [Segments.put, hsub]
    · simp only [Segments.put, Function.update_of_ne (Ne.symm hname), hname, decide_false]
      exact ihs name

theorem segmentSubnet_sound {s : System} {override name : Text} {sub : Subnet}
    (h : segmentSubnet s override name = some sub) : sub.Sound := by
  unfold segmentSubnet at h
  split at h
  · cases h
  · split at h
    · rename_i hparse
      cases h
      exact parseSubnet_sound hparse
    · cases h

/-! ## What a host gets -/

def GivesHost (n : Node) : Prop := n.hasEndpoint = true ∧ n.hasHost = true

/-- A network is that of host `h` of a subnet. -/
structure HostAt (sub : Subnet) (h : Int) (net : Net) : Prop where
  address_eq : (net.address.toNat : Int) = sub.network.toNat + h
  above : sub.network < net.address
  below : net.address < sub.broadcast
  not_gateway : net.address ≠ net.gateway
  gateway_eq : net.gateway = sub.network ||| 1
  netmask_eq : net.netmask = sub.mask

/-- What is written for host `h`, and what the tools read of it. -/
theorem resolve_host {sub : Subnet} (hs : sub.Sound) {h : Int} (hlow : 2 ≤ h)
    (hhigh : h ≤ sub.hosts.toNat) :
    ∃ net, resolve (dotted (sub.network ||| BitVec.ofInt 32 h))
      (if sub.prefixLen ≠ 24 then some (dotted sub.mask) else none) none = (net, []) ∧
      HostAt sub h net := by
  obtain ⟨hmaskOk, hwild, hhosts⟩ := hs.mask
  have hsize := hs.size
  have hh : (BitVec.ofInt 32 h).toNat = h.toNat := by
    rw [BitVec.toNat_ofInt]
    have : h % (2 : Int) ^ 32 = h := Int.emod_eq_of_lt (by omega) (by omega)
    norm_num at this ⊢
    rw [this]
  have hlt : (BitVec.ofInt 32 h).toNat < 2 ^ (32 - sub.prefixLen) := by omega
  have hone : (1 : U32).toNat < 2 ^ (32 - sub.prefixLen) := by
    have : (1 : U32).toNat = 1 := rfl
    omega
  have haddr := hs.toNat_or hlt
  have hgate := hs.toNat_or hone
  have hbroad : sub.broadcast.toNat = sub.network.toNat + (2 ^ (32 - sub.prefixLen) - 1) := by
    rw [Subnet.broadcast, hs.toNat_or (by omega), hwild]
  have hnet := hs.and_mask hlt
  have hgnet := hs.and_mask hone
  have e₁ : (1 : U32).toNat = 1 := rfl
  let net : Net :=
    { address := sub.network ||| BitVec.ofInt 32 h, netmask := sub.mask, gateway := sub.network ||| 1,
      hasNetmask := (if sub.prefixLen ≠ 24 then some (dotted sub.mask) else none).isSome,
      hasGateway := false }
  have hmask : resolveMask (if sub.prefixLen ≠ 24 then some (dotted sub.mask) else none) =
      (sub.mask, []) := by
    by_cases h24 : sub.prefixLen = 24
    · rw [if_neg (not_not.mpr h24), Subnet.mask, h24]
      rfl
    · rw [if_pos h24]
      simp [resolveMask, parse_dotted, hmaskOk]
  have hproblems : gatewayProblems net = [] := by
    have hnetwork : net.network = sub.network := hnet
    have hne : sub.network ||| 1 ≠ sub.network := fun e => by
      have := congrArg BitVec.toNat e
      omega
    have hbr : sub.network ||| 1 ≠ sub.broadcast := fun e => by
      have := congrArg BitVec.toNat e
      omega
    have hbcast : net.broadcast = sub.broadcast := by rw [Net.broadcast, hnetwork]; rfl
    rw [gatewayProblems, hnetwork, hbcast]
    dsimp only [net]
    rw [if_neg (by rw [hs.unicast_gateway]; decide), if_neg (not_not.mpr hgnet), if_neg hne, if_neg hbr]
  refine ⟨net, ?_, ⟨?_, ?_, ?_, ?_, rfl, rfl⟩⟩
  · have ha : resolveAddress (dotted (sub.network ||| BitVec.ofInt 32 h)) =
        (sub.network ||| BitVec.ofInt 32 h, []) := by simp [resolveAddress, parse_dotted]
    have hg : resolveGateway (sub.network ||| BitVec.ofInt 32 h) sub.mask none =
        (sub.network ||| 1, []) := by
      rw [resolveGateway, defaultGateway, hnet]
    simp only [resolve, ha, hmask, hg, List.append_nil, List.length_nil, lt_irrefl, if_false,
      List.nil_append, Option.isSome_none]
    rw [hproblems]
  · show (((sub.network ||| BitVec.ofInt 32 h).toNat : ℕ) : Int) = _
    omega
  · exact BitVec.lt_def.mpr (by show _ < (sub.network ||| BitVec.ofInt 32 h).toNat; omega)
  · exact BitVec.lt_def.mpr (by show (sub.network ||| BitVec.ofInt 32 h).toNat < _; omega)
  · intro e
    have := congrArg BitVec.toNat e
    change (sub.network ||| BitVec.ofInt 32 h).toNat = (sub.network ||| 1).toNat at this
    omega

/-- The node that gives a host and of which nothing is recorded. -/
theorem resolveNode_clean {g : Segments} (hbroken : g.broken = []) {n : Node} (hn : GivesHost n)
    (h : (resolveNode g n).errs = []) :
    ∃ b sub, (n.buses.filter fun b => (g.subnets b).isSome) = [b] ∧ g.subnets b = some sub ∧
      2 ≤ n.hostRaw ∧ n.hostRaw ≤ sub.hosts.toNat ∧
      (resolveNode g n).node.endpoint = dotted (sub.network ||| BitVec.ofInt 32 n.hostRaw) ∧
      (resolveNode g n).node.endpointNetmask =
        (if sub.prefixLen ≠ 24 then some (dotted sub.mask) else none) ∧
      (resolveNode g n).node.endpointGateway = none := by
  dsimp only [resolveNode] at h ⊢
  rw [if_neg (by simp [hn.1])] at h ⊢
  by_cases haddr : n.hasAddress = true
  · rw [if_pos ⟨haddr, hn.2⟩] at h
    simp at h
  rw [if_neg (fun hb => haddr hb.1), if_neg haddr, if_neg (by simp [hn.2]),
    if_neg (by simp [hbroken])] at h ⊢
  rcases hon : n.buses.filter fun b => (g.subnets b).isSome with _ | ⟨b, _ | ⟨b', bs⟩⟩
  · simp [hon] at h
  · have hsome : (g.subnets b).isSome = true := by
      have hmem : b ∈ n.buses.filter fun b => (g.subnets b).isSome := by rw [hon]; simp
      exact (List.mem_filter.mp hmem).2
    obtain ⟨sub, hsub⟩ := Option.isSome_iff_exists.mp hsome
    simp only [hon, hsub, Option.getD_some] at h ⊢
    split at h
    case isTrue => simp at h
    rename_i hrange
    split at h
    case isTrue => simp at h
    rename_i hgate
    split at h
    case isTrue => simp at h
    rename_i hauthored
    rw [if_neg hrange, if_neg hgate, if_neg hauthored]
    rw [not_or, not_or, not_lt, not_lt] at hrange
    have hnone : n.endpointNetmask = none ∧ n.endpointGateway = none := by simpa using hauthored
    refine ⟨b, sub, rfl, hsub, by omega, hrange.2.2, ?_, ?_, ?_⟩
    all_goals split <;> simp [hnone]
  · simp [hon] at h

/-- The system's results, where nothing is recorded. -/
theorem resolveHosts_clean {s : System} {override : Text}
    (h : (resolveHosts s override).subnetErrs = []) :
    ∃ g : Segments, g.broken = [] ∧ (∀ name, g.subnets name = segmentSubnet s override name) ∧
      (resolveHosts s override).nodes = s.nodes.map (fun n => (resolveNode g n).node) ∧
      ∀ n ∈ s.nodes, (resolveNode g n).errs = [] := by
  dsimp only [resolveHosts] at h ⊢
  by_cases hone : override ≠ [] ∧ 1 < (s.buses.filter (·.hasSubnet)).length
  · rw [if_pos hone] at h
    simp at h
  · rw [if_neg hone] at h ⊢
    simp only [List.append_eq_nil_iff] at h
    obtain ⟨⟨⟨-, hg⟩, hrs⟩, -⟩ := h
    obtain ⟨hbroken, hsub⟩ := segments_clean hone hg
    refine ⟨_, hbroken, hsub, List.map_map, fun n hn => ?_⟩
    exact List.flatMap_eq_nil_iff.mp hrs _ (List.mem_map_of_mem hn)

/-- Where nothing is recorded, the node that gives host `h` is host `h` of its segment. -/
theorem resolveHosts_host {s : System} {override : Text}
    (h : (resolveHosts s override).subnetErrs = []) {i : ℕ} {n : Node} (hi : s.nodes[i]? = some n)
    (hn : GivesHost n) :
    ∃ n' b sub net, (resolveHosts s override).nodes[i]? = some n' ∧
      (n.buses.filter fun b => (segmentSubnet s override b).isSome) = [b] ∧
      segmentSubnet s override b = some sub ∧
      resolve n'.endpoint n'.endpointNetmask n'.endpointGateway = (net, []) ∧
      HostAt sub n.hostRaw net := by
  obtain ⟨g, hbroken, hsub, hnodes, hclean⟩ := resolveHosts_clean h
  obtain ⟨b, sub, hon, hb, hlow, hhigh, he, hm, hg⟩ :=
    resolveNode_clean hbroken hn (hclean n (List.mem_of_getElem? hi))
  rw [hsub] at hb
  obtain ⟨net, hnet, hat⟩ := resolve_host (segmentSubnet_sound hb) hlow hhigh
  refine ⟨(resolveNode g n).node, b, sub, net, by rw [hnodes, List.getElem?_map, hi]; rfl, ?_, hb, ?_,
    hat⟩
  · simpa only [hsub] using hon
  · rw [he, hm, hg]
    exact hnet

/-- The plan of addresses: a host has the address of its number in its segment, which two nodes share
only where they gave one number; the target brings up the network that the tools accepted; and no address
is lost when it is written. -/
theorem address_plan (ipAddress : ℕ → ℕ → ℕ → ℕ → U32) (hip : PacksOctets ipAddress) :
    (∀ (s : System) (override : Text), (resolveHosts s override).subnetErrs = [] →
      (∀ (i : ℕ) (n : Node), s.nodes[i]? = some n → GivesHost n →
        ∃ (n' : Node) (b : Text) (sub : Subnet) (net : Net),
          (resolveHosts s override).nodes[i]? = some n' ∧
          (n.buses.filter fun b => (segmentSubnet s override b).isSome) = [b] ∧
          segmentSubnet s override b = some sub ∧
          resolve n'.endpoint n'.endpointNetmask n'.endpointGateway = (net, []) ∧
          HostAt sub n.hostRaw net) ∧
      (∀ (i j : ℕ) (n m n' m' : Node) (b : Text), s.nodes[i]? = some n → s.nodes[j]? = some m → GivesHost n → GivesHost m →
        b ∈ n.buses → b ∈ m.buses → (segmentSubnet s override b).isSome = true →
        (resolveHosts s override).nodes[i]? = some n' → (resolveHosts s override).nodes[j]? = some m' →
        n'.endpoint = m'.endpoint → n.hostRaw = m.hostRaw)) ∧
    (∀ address netmask gateway entity n, check address netmask gateway entity = (n, [], []) →
      n.address ≠ 0 → ∀ t : Target, t.up = 0 →
      blobNetUp ipAddress n.cDefs true true address t =
        (0, { up := 1, ipAddr := n.address, created := some (n.address, n.netmask),
              gateway := some n.gateway })) ∧
    ∀ a, parse (dotted a) = some a := by
  refine ⟨fun s override h => ⟨fun i n hi hn => resolveHosts_host h hi hn, ?_⟩, ?_, parse_dotted⟩
  · intro i j n m n' m' b hi hj hn hm hbn hbm hb hi' hj' hsame
    obtain ⟨n₁, b₁, sub₁, net₁, hn₁, hon₁, hsub₁, hres₁, hat₁⟩ := resolveHosts_host h hi hn
    obtain ⟨m₁, b₂, sub₂, net₂, hm₁, hon₂, hsub₂, hres₂, hat₂⟩ := resolveHosts_host h hj hm
    obtain rfl := Option.some.inj (hi'.symm.trans hn₁)
    obtain rfl := Option.some.inj (hj'.symm.trans hm₁)
    -- each node has one segment, so the shared bus is that of both
    have hb₁ : b = b₁ := by
      have hmem : b ∈ n.buses.filter fun b => (segmentSubnet s override b).isSome :=
        List.mem_filter.mpr ⟨hbn, hb⟩
      rwa [hon₁, List.mem_singleton] at hmem
    have hb₂ : b = b₂ := by
      have hmem : b ∈ m.buses.filter fun b => (segmentSubnet s override b).isSome :=
        List.mem_filter.mpr ⟨hbm, hb⟩
      rwa [hon₂, List.mem_singleton] at hmem
    subst hb₁ hb₂
    obtain rfl := Option.some.inj (hsub₁.symm.trans hsub₂)
    have hread : net₁.address = net₂.address := by
      have h₁ := (resolve_sound hres₁).1
      have h₂ := (resolve_sound hres₂).1
      rw [hsame, h₂] at h₁
      exact (Option.some.inj h₁).symm
    have e₁ := hat₁.address_eq
    have e₂ := hat₂.address_eq
    rw [hread] at e₁
    omega
  · intro address netmask gateway entity n h hn t ht
    have hres : resolve address netmask gateway = (n, []) := by
      dsimp only [check] at h
      split at h
      · obtain ⟨e₁, e₂⟩ := Prod.ext_iff.mp h
        exact Prod.ext e₁ (Prod.ext_iff.mp e₂).1
      · obtain ⟨e₁, e₂⟩ := Prod.ext_iff.mp h
        exact Prod.ext e₁ (Prod.ext_iff.mp e₂).1
    exact blobNetUp_of_resolve hip hres hn ht

/-- The macro as the network stack defines it. -/
def packOctets (o₀ o₁ o₂ o₃ : ℕ) : U32 :=
  BitVec.ofNat 32 o₀ <<< 24 ||| BitVec.ofNat 32 o₁ <<< 16 ||| BitVec.ofNat 32 o₂ <<< 8 |||
    BitVec.ofNat 32 o₃

def benchBus : Bus :=
  { name := "eth".toList, kind := "someip".toList, hasSubnet := true, subnet := "10.1.0.0/20".toList }

def benchNode (h : Int) : Node :=
  { name := "gw".toList, buses := ["eth".toList], hasEndpoint := true, hasAddress := false,
    hasHost := true, hostInt := true, hostRaw := h, endpoint := [], endpointNetmask := none,
    endpointGateway := none, netmaskFromSubnet := false }

def benchSystem : System :=
  { buses := [benchBus], nodes := [benchNode 300], subnetOverride := [], subnetErrs := [],
    subnetApplied := false }

theorem address_plan_bench :
    (resolveHosts benchSystem []).subnetErrs = [] ∧
    ∃ n' b sub net, (resolveHosts benchSystem []).nodes[0]? = some n' ∧
      ((benchNode 300).buses.filter fun b => (segmentSubnet benchSystem [] b).isSome) = [b] ∧
      segmentSubnet benchSystem [] b = some sub ∧
      resolve n'.endpoint n'.endpointNetmask n'.endpointGateway = (net, []) ∧
      HostAt sub 300 net ∧
    blobNetUp packOctets "-DBLOB_NET_GATEWAY=0xC0A800FEUL".toList true true "192.168.0.050".toList
        { up := 0, ipAddr := 0, created := none, gateway := none } =
      (0, { up := 1, ipAddr := 0xC0A80032, created := some (0xC0A80032, 0xFFFFFF00),
            gateway := some 0xC0A800FE }) := by
  have hclean : (resolveHosts benchSystem []).subnetErrs = [] ∧
      check "192.168.0.050".toList none (some "192.168.0.254".toList) true =
        ({ address := 0xC0A80032, netmask := 0xFFFFFF00, gateway := 0xC0A800FE, hasNetmask := false,
           hasGateway := true }, [], []) := by decide +kernel
  have hplan := address_plan packOctets (fun _ _ _ _ _ _ _ _ => rfl)
  obtain ⟨n', b, sub, net, h₁, h₂, h₃, h₄, h₅⟩ :=
    (hplan.1 benchSystem [] hclean.1).1 0 (benchNode 300) rfl ⟨rfl, rfl⟩
  exact ⟨hclean.1, n', b, sub, net, h₁, h₂, h₃, h₄, h₅,
    hplan.2.1 _ _ _ _ _ hclean.2 (by decide) _ rfl⟩

end BloblyEmb.Netcfg
