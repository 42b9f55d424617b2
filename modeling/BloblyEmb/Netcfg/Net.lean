import BloblyEmb.Netcfg.Address

/-!
# A node's subnet

The netmask and the gateway are configured or defaulted by the tools, and defaulted again by the target.
What is configured reaches the target as compiler flags (`c_defs`), which `blob_net_up` reads.
-/
namespace BloblyEmb.Netcfg

open Candb.Dbc (Text)

def quoted (t : Text) : Text := "\"".toList ++ t ++ "\"".toList

/-! ## Masks -/

def maskOk (m : U32) : Bool :=
  let host := ~~~m
  decide (m ≠ 0) && decide (3 ≤ host) && decide (host &&& (host + 1) = 0)

/-- An address that a host or a router can hold. -/
def unicast (a : U32) : Bool :=
  let top := a >>> 24
  decide (top ≠ 0) && decide (top ≠ 127) && decide (top < 224)

def defaultNetmask : U32 := 0xFFFFFF00

def defaultGateway (address mask : U32) : U32 := (address &&& mask) ||| 1

/-! ## The network of a node -/

structure Net where
  address : U32
  netmask : U32
  gateway : U32
  hasNetmask : Bool
  hasGateway : Bool
deriving DecidableEq

namespace Net

def network (n : Net) : U32 := n.address &&& n.netmask

def broadcast (n : Net) : U32 := n.network ||| ~~~n.netmask

def subnet (n : Net) : Text := dotted n.network ++ "/".toList ++ dotted n.netmask

end Net

/-- The address, or 0 and an error. -/
def resolveAddress (address : Text) : U32 × List Text :=
  match parse address with
  | some pa => (pa, [])
  | none => (0, ["address ".toList ++ quoted address ++ " is not a dotted IPv4 address".toList])

/-- The mask that is configured, or a /24. -/
def resolveMask : Option Text → U32 × List Text
  | none => (defaultNetmask, [])
  | some nm =>
    match parse nm with
    | some pm =>
      (pm, if maskOk pm then [] else ["netmask ".toList ++ quoted nm ++
        (" is not a contiguous mask of /1../30 (ones, then zeros, with room for a host and a " ++
          "gateway)").toList])
    | none =>
      (defaultNetmask, ["netmask ".toList ++ quoted nm ++ " is not a dotted IPv4 address".toList])

/-- The gateway that is configured, or the first host of the subnet. -/
def resolveGateway (a m : U32) : Option Text → U32 × List Text
  | none => (defaultGateway a m, [])
  | some gw =>
    match parse gw with
    | some pg => (pg, [])
    | none =>
      (defaultGateway a m, ["gateway ".toList ++ quoted gw ++ " is not a dotted IPv4 address".toList])

/-- The gateway as a router on the subnet. -/
def gatewayProblems (n : Net) : List Text :=
  let g := "gateway ".toList ++ quoted (dotted n.gateway)
  if unicast n.gateway = false then
    [g ++ " is not a unicast address (0.x, 127.x and 224.0.0.0 and above are not)".toList]
  else if n.gateway &&& n.netmask ≠ n.network then [g ++ " is not on the subnet ".toList ++ n.subnet]
  else if n.gateway = n.network then [g ++ " is the network address of ".toList ++ n.subnet]
  else if n.gateway = n.broadcast then [g ++ " is the broadcast address of ".toList ++ n.subnet]
  else []

def resolve (address : Text) (netmask gateway : Option Text) : Net × List Text :=
  let a := resolveAddress address
  let m := resolveMask netmask
  let g := resolveGateway a.1 m.1 gateway
  let errs := a.2 ++ m.2 ++ g.2
  let n : Net := { address := a.1, netmask := m.1, gateway := g.1, hasNetmask := netmask.isSome,
                   hasGateway := gateway.isSome }
  if 0 < errs.length then (n, errs) else (n, errs ++ gatewayProblems n)

/-- The address as a host of its subnet. -/
def hostProblems (n : Net) : List Text :=
  let a := "address ".toList ++ quoted (dotted n.address)
  if unicast n.address = false then
    [a ++ " is not a unicast address (0.x, 127.x and 224.0.0.0 and above are not)".toList]
  else if n.address = n.network then [a ++ " is the network address of ".toList ++ n.subnet]
  else if n.address = n.broadcast then [a ++ " is the broadcast address of ".toList ++ n.subnet]
  else if n.address = n.gateway then [a ++ " is its own gateway".toList]
  else []

/-- The network, the problems of the subnet, and those of the address. -/
def check (address : Text) (netmask gateway : Option Text) (entity : Bool) :
    Net × List Text × List Text :=
  let (n, errs) := resolve address netmask gateway
  if 0 < errs.length ∨ ¬ (entity || n.hasNetmask || n.hasGateway) then (n, errs, [])
  else (n, errs, hostProblems n)

/-- What is resolved without a problem is what the texts say, or the default. -/
theorem resolve_sound {address : Text} {netmask gateway : Option Text} {n : Net}
    (h : resolve address netmask gateway = (n, [])) :
    parse address = some n.address ∧
    (match netmask with
      | none => n.netmask = defaultNetmask ∧ n.hasNetmask = false
      | some nm => parse nm = some n.netmask ∧ n.hasNetmask = true) ∧
    (match gateway with
      | none => n.gateway = defaultGateway n.address n.netmask ∧ n.hasGateway = false
      | some gw => parse gw = some n.gateway ∧ n.hasGateway = true) := by
  have herrs : (resolveAddress address).2 = [] ∧ (resolveMask netmask).2 = [] ∧
      (resolveGateway (resolveAddress address).1 (resolveMask netmask).1 gateway).2 = [] := by
    dsimp only [resolve] at h
    split at h
    · rename_i hpos
      exact absurd (Prod.ext_iff.mp h).2 (List.length_pos_iff.mp hpos)
    · rename_i hpos
      have hnil := List.eq_nil_of_length_eq_zero (Nat.eq_zero_of_not_pos hpos)
      simpa [and_assoc] using hnil
  have hn : n = { address := (resolveAddress address).1, netmask := (resolveMask netmask).1,
                  gateway := (resolveGateway (resolveAddress address).1 (resolveMask netmask).1 gateway).1,
                  hasNetmask := netmask.isSome, hasGateway := gateway.isSome } := by
    dsimp only [resolve] at h
    split at h <;> exact (Prod.ext_iff.mp h).1.symm
  obtain ⟨ha, hm, hg⟩ := herrs
  subst hn
  refine ⟨?_, ?_, ?_⟩
  · unfold resolveAddress at ha ⊢
    split
    · rename_i pa hpa
      exact hpa
    · rename_i hpa
      simp [hpa] at ha
  · cases netmask with
    | none => exact ⟨rfl, rfl⟩
    | some nm =>
      simp only [resolveMask] at hm ⊢
      split
      · rename_i pm hpm
        exact ⟨hpm, rfl⟩
      · rename_i hpm
        simp [hpm] at hm
  · cases gateway with
    | none => exact ⟨rfl, rfl⟩
    | some gw =>
      simp only [resolveGateway] at hg ⊢
      split
      · rename_i pg hpg
        exact ⟨hpg, rfl⟩
      · rename_i hpg
        simp [hpg] at hg

/-! ## The compiler flags -/

def hexChar (d : ℕ) : Char := if d < 10 then Char.ofNat ('0'.toNat + d) else Char.ofNat ('A'.toNat + (d - 10))

def hexVal (c : Char) : Option ℕ :=
  if isDigit c then some (digit c)
  else if 'A' ≤ c ∧ c ≤ 'F' then some (c.toNat - 'A'.toNat + 10)
  else if 'a' ≤ c ∧ c ≤ 'f' then some (c.toNat - 'a'.toNat + 10)
  else none

/-- `${a:08X}`. -/
def hex8 (a : U32) : Text := (List.range 8).map fun i => hexChar (a.toNat / 16 ^ (7 - i) % 16)

/-- The digits at the front of a hexadecimal literal. -/
def readHex (acc : ℕ) : Text → ℕ
  | [] => acc
  | c :: cs =>
    match hexVal c with
    | some d => readHex (acc * 16 + d) cs
    | none => acc

theorem hexChar_spec : ∀ d < 16, hexVal (hexChar d) = some d ∧ hexChar d ≠ ' ' := by decide

/-- The literal of a flag is the value that was written. -/
theorem readHex_hex8 (a : U32) : readHex 0 (hex8 a ++ "UL".toList) = a.toNat := by
  have ha := a.isLt
  have hd : ∀ k, hexVal (hexChar (a.toNat / k % 16)) = some (a.toNat / k % 16) := fun k =>
    (hexChar_spec _ (Nat.mod_lt _ (by decide))).1
  have hend : hexVal 'U' = none := by decide
  have hlist : hex8 a ++ "UL".toList = hexChar (a.toNat / 16 ^ 7 % 16) ::
      hexChar (a.toNat / 16 ^ 6 % 16) :: hexChar (a.toNat / 16 ^ 5 % 16) ::
      hexChar (a.toNat / 16 ^ 4 % 16) :: hexChar (a.toNat / 16 ^ 3 % 16) ::
      hexChar (a.toNat / 16 ^ 2 % 16) :: hexChar (a.toNat / 16 ^ 1 % 16) ::
      hexChar (a.toNat / 16 ^ 0 % 16) :: ['U', 'L'] := rfl
  rw [hlist]
  simp only [readHex, hd, hend]
  omega

theorem space_notMem_hex8 (a : U32) : ' ' ∉ hex8 a := by
  intro h
  obtain ⟨i, -, hi⟩ := List.mem_map.mp h
  exact (hexChar_spec _ (Nat.mod_lt _ (by decide))).2 hi

def flag (name : String) (a : U32) : Text := "-D".toList ++ name.toList ++ "=0x".toList ++ hex8 a ++ "UL".toList

def Net.cDefs (n : Net) : Text :=
  let d := (if n.hasNetmask then [flag "BLOB_NET_NETMASK" n.netmask] else []) ++
    (if n.hasGateway then [flag "BLOB_NET_GATEWAY" n.gateway] else [])
  [' '].intercalate d

/-- What the compiler makes of the flags: the value of the macro, if one of them defines it. -/
def defined (name : String) (flags : Text) : Option U32 :=
  (flags.splitOn ' ').findSome? fun w =>
    let key := "-D".toList ++ name.toList ++ "=0x".toList
    if key.isPrefixOf w then some (BitVec.ofNat 32 (readHex 0 (w.drop key.length))) else none

theorem defined_flag_self (name : String) (a : U32) :
    (let key := "-D".toList ++ name.toList ++ "=0x".toList
     if key.isPrefixOf (flag name a) then
       some (BitVec.ofNat 32 (readHex 0 ((flag name a).drop key.length))) else none) = some a := by
  have hpre : ("-D".toList ++ name.toList ++ "=0x".toList).isPrefixOf (flag name a) = true := by
    rw [List.isPrefixOf_iff_prefix]
    exact ⟨hex8 a ++ "UL".toList, by simp [flag]⟩
  have hdrop : (flag name a).drop ("-D".toList ++ name.toList ++ "=0x".toList).length =
      hex8 a ++ "UL".toList := by
    rw [flag, List.append_assoc _ (hex8 a), List.drop_left]
  dsimp only
  rw [if_pos hpre, hdrop, readHex_hex8, BitVec.ofNat_toNat, BitVec.setWidth_eq]

theorem flag_netmask_spaceless (a : U32) : ' ' ∉ flag "BLOB_NET_NETMASK" a := by
  simp only [flag, List.mem_append, not_or]
  exact ⟨⟨⟨⟨by decide, by decide⟩, by decide⟩, space_notMem_hex8 a⟩, by decide⟩

theorem flag_gateway_spaceless (a : U32) : ' ' ∉ flag "BLOB_NET_GATEWAY" a := by
  simp only [flag, List.mem_append, not_or]
  exact ⟨⟨⟨⟨by decide, by decide⟩, by decide⟩, space_notMem_hex8 a⟩, by decide⟩

theorem flag_netmask_other (a : U32) :
    ("-D".toList ++ "BLOB_NET_GATEWAY".toList ++ "=0x".toList).isPrefixOf
      (flag "BLOB_NET_NETMASK" a) = false := rfl

theorem flag_gateway_other (a : U32) :
    ("-D".toList ++ "BLOB_NET_NETMASK".toList ++ "=0x".toList).isPrefixOf
      (flag "BLOB_NET_GATEWAY" a) = false := rfl

/-- The flags define what was configured and nothing else. -/
theorem defined_cDefs (n : Net) :
    defined "BLOB_NET_NETMASK" n.cDefs = (if n.hasNetmask then some n.netmask else none) ∧
    defined "BLOB_NET_GATEWAY" n.cDefs = (if n.hasGateway then some n.gateway else none) := by
  have hm := flag_netmask_spaceless n.netmask
  have hg := flag_gateway_spaceless n.gateway
  have hself := defined_flag_self
  dsimp only at hself
  cases h₁ : n.hasNetmask <;> cases h₂ : n.hasGateway
  · have hs : n.cDefs = [] := by rw [Net.cDefs, h₁, h₂]; rfl
    rw [hs]
    exact ⟨rfl, rfl⟩
  · have hs : n.cDefs.splitOn ' ' = [flag "BLOB_NET_GATEWAY" n.gateway] := by
      rw [Net.cDefs, h₁, h₂]
      exact List.splitOn_intercalate ' ' (by simpa using hg) (by simp)
    simp only [defined, hs, List.findSome?_cons, List.findSome?_nil, flag_gateway_other, hself]
    simp
  · have hs : n.cDefs.splitOn ' ' = [flag "BLOB_NET_NETMASK" n.netmask] := by
      rw [Net.cDefs, h₁, h₂]
      exact List.splitOn_intercalate ' ' (by simpa using hm) (by simp)
    simp only [defined, hs, List.findSome?_cons, List.findSome?_nil, flag_netmask_other, hself]
    simp
  · have hs : n.cDefs.splitOn ' ' =
        [flag "BLOB_NET_NETMASK" n.netmask, flag "BLOB_NET_GATEWAY" n.gateway] := by
      rw [Net.cDefs, h₁, h₂]
      exact List.splitOn_intercalate ' ' (by simpa using ⟨hm, hg⟩) (by simp)
    simp only [defined, hs, List.findSome?_cons, flag_netmask_other, hself]
    simp

/-! ## The bring-up on the target -/

/-- What the target has set: 0 is not yet up, 1 up, -1 failed. -/
structure Target where
  up : Int
  ipAddr : U32
  created : Option (U32 × U32)
  gateway : Option U32
deriving DecidableEq

/-- `blob_net_up`, compiled with the flags; the creation of the pool and of the instance may fail. -/
def blobNetUp (ipAddress : ℕ → ℕ → ℕ → ℕ → U32) (flags : Text) (poolCreate ipCreate : Bool)
    (addr : Text) (t : Target) : Int × Target :=
  let mask := (defined "BLOB_NET_NETMASK" flags).getD 0xFFFFFF00
  let a := parseIp4 ipAddress addr
  if t.up ≠ 0 then (if 0 < t.up ∧ a = t.ipAddr then 0 else -1, t)
  else
    let t := { t with up := -1 }
    if a = 0 then (-1, t)
    else
      let t := { t with ipAddr := a }
      if poolCreate = false then (-1, t)
      else if ipCreate = false then (-1, t)
      else
        let t := { t with created := some (a, mask) }
        let gateway := (defined "BLOB_NET_GATEWAY" flags).getD ((a &&& mask) ||| 1)
        (0, { t with gateway := some gateway, up := 1 })

/-- The target sets what the tools resolved. -/
theorem blobNetUp_of_resolve {ipAddress : ℕ → ℕ → ℕ → ℕ → U32} (hip : PacksOctets ipAddress)
    {address : Text} {netmask gateway : Option Text} {n : Net}
    (h : resolve address netmask gateway = (n, [])) (hn : n.address ≠ 0) {t : Target} (ht : t.up = 0) :
    blobNetUp ipAddress n.cDefs true true address t =
      (0, { up := 1, ipAddr := n.address, created := some (n.address, n.netmask),
            gateway := some n.gateway }) := by
  obtain ⟨ha, hm, hg⟩ := resolve_sound h
  obtain ⟨dm, dg⟩ := defined_cDefs n
  have hmask : (if n.hasNetmask then some n.netmask else none).getD 0xFFFFFF00 = n.netmask := by
    cases netmask with
    | none => rw [if_neg (by simp [hm.2]), hm.1]; rfl
    | some nm => rw [if_pos hm.2]; rfl
  have hgate : (if n.hasGateway then some n.gateway else none).getD
      ((n.address &&& n.netmask) ||| 1) = n.gateway := by
    cases gateway with
    | none => rw [if_neg (by simp [hg.2]), hg.1]; rfl
    | some gw => rw [if_pos hg.2]; rfl
  unfold blobNetUp
  simp only [parseIp4_of_parse hip ha, dm, dg, hmask, hgate]
  simp only [ht, ne_eq, not_true_eq_false, if_false, if_neg hn, Bool.true_eq_false]

end BloblyEmb.Netcfg
