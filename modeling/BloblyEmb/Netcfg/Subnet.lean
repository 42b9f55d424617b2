import BloblyEmb.Netcfg.Net

/-!
# The subnet of a segment

A segment's network is an address and a prefix length (`parse_subnet`). Its hosts are numbered from 1;
the first is the gateway.
-/
namespace BloblyEmb.Netcfg

open Candb.Dbc (Text)

structure Subnet where
  network : U32
  prefixLen : ℕ
deriving DecidableEq

namespace Subnet

def mask (s : Subnet) : U32 := 0xFFFFFFFF#32 <<< (32 - s.prefixLen)

/-- How many host numbers the subnet holds. -/
def hosts (s : Subnet) : U32 := ~~~s.mask - 1

def str (s : Subnet) : Text := dotted s.network ++ "/".toList ++ decimal s.prefixLen

def broadcast (s : Subnet) : U32 := s.network ||| ~~~s.mask

end Subnet

def parseSubnet (s : Text) : Except Text Subnet :=
  let addr := s.takeWhile (· ≠ '/')
  let len := (s.dropWhile (· ≠ '/')).drop 1
  let named := "subnet ".toList ++ quoted s
  if '/' ∉ s ∨ len.length = 0 ∨ 2 < len.length ∨ len.all isDigit = false then
    .error (named ++ " is not \"<network>/<prefix length>\", e.g. \"192.168.77.0/24\"".toList)
  else
    match parse addr with
    | none => .error (named ++ ": ".toList ++ quoted addr ++ " is not a dotted IPv4 address".toList)
    | some n =>
      let p := int len
      if p < 1 ∨ 30 < p then .error (named ++ ": the prefix length must be 1..30".toList)
      else
        let sub : Subnet := { network := n, prefixLen := p }
        if n &&& ~~~sub.mask ≠ 0 then
          .error (named ++ " has host bits set — its network address is ".toList ++
            dotted (n &&& sub.mask))
        else if ¬ unicast (n ||| 1) ∨ ¬ unicast ((n ||| ~~~sub.mask) - 1) then
          .error (named ++
            " is not a unicast network (0.x, 127.x and 224.0.0.0 and above are not)".toList)
        else .ok sub

/-- What an accepted subnet is. -/
structure Subnet.Sound (s : Subnet) : Prop where
  one_le : 1 ≤ s.prefixLen
  le_thirty : s.prefixLen ≤ 30
  aligned : s.network &&& ~~~s.mask = 0
  unicast_gateway : unicast (s.network ||| 1) = true

theorem parseSubnet_sound {t : Text} {s : Subnet} (h : parseSubnet t = .ok s) : s.Sound := by
  dsimp only [parseSubnet] at h
  split at h
  case isTrue => cases h
  split at h
  · cases h
  split at h
  case isTrue => cases h
  rename_i hp
  split at h
  case isTrue => cases h
  rename_i haligned
  split at h
  case isTrue => cases h
  rename_i hunicast
  cases h
  rw [not_or, not_lt, not_lt] at hp
  exact ⟨hp.1, hp.2, not_not.mp haligned, by simpa using (not_or.mp hunicast).1⟩

namespace Subnet

/-- A mask as the tools accept it, with as many zeros as the prefix leaves. -/
theorem mask_spec : ∀ p : Fin 31, 1 ≤ p.val →
    maskOk (0xFFFFFFFF#32 <<< (32 - p.val)) = true ∧
    (~~~(0xFFFFFFFF#32 <<< (32 - p.val))).toNat = 2 ^ (32 - p.val) - 1 ∧
    (~~~(0xFFFFFFFF#32 <<< (32 - p.val)) - 1#32).toNat = 2 ^ (32 - p.val) - 2 := by
  decide +kernel

variable {s : Subnet}

theorem Sound.mask (hs : s.Sound) : maskOk s.mask = true ∧
    (~~~s.mask).toNat = 2 ^ (32 - s.prefixLen) - 1 ∧ s.hosts.toNat = 2 ^ (32 - s.prefixLen) - 2 :=
  mask_spec ⟨s.prefixLen, by have := hs.le_thirty; omega⟩ hs.one_le

/-- The network address is a multiple of the subnet's size. -/
theorem Sound.network_mod (hs : s.Sound) : s.network.toNat % 2 ^ (32 - s.prefixLen) = 0 := by
  have hand := congrArg BitVec.toNat hs.aligned
  rw [BitVec.toNat_and, hs.mask.2.1, Nat.and_two_pow_sub_one_eq_mod] at hand
  simpa using hand

theorem Sound.size (hs : s.Sound) : 4 ≤ 2 ^ (32 - s.prefixLen) ∧ 2 ^ (32 - s.prefixLen) ≤ 2 ^ 31 := by
  have h₁ := hs.one_le
  have h₂ := hs.le_thirty
  have hlow : 2 ^ 2 ≤ 2 ^ (32 - s.prefixLen) := Nat.pow_le_pow_right (by decide) (by omega)
  have hhigh : 2 ^ (32 - s.prefixLen) ≤ 2 ^ 31 := Nat.pow_le_pow_right (by decide) (by omega)
  exact ⟨hlow, hhigh⟩

/-- A host number is put under the network address, which is what adding it does. -/
theorem Sound.toNat_or (hs : s.Sound) {h : U32} (hh : h.toNat < 2 ^ (32 - s.prefixLen)) :
    (s.network ||| h).toNat = s.network.toNat + h.toNat := by
  obtain ⟨q, hq⟩ := Nat.dvd_of_mod_eq_zero hs.network_mod
  rw [BitVec.toNat_or, hq, ← Nat.two_pow_add_eq_or_of_lt hh]

theorem Sound.and_mask (hs : s.Sound) {h : U32} (hh : h.toNat < 2 ^ (32 - s.prefixLen)) :
    (s.network ||| h) &&& s.mask = s.network := by
  have hmask : h &&& s.mask = 0 := by
    have hwild : h &&& ~~~s.mask = h := by
      apply BitVec.eq_of_toNat_eq
      rw [BitVec.toNat_and, hs.mask.2.1, Nat.and_two_pow_sub_one_eq_mod, Nat.mod_eq_of_lt hh]
    rw [← hwild, BitVec.and_assoc, BitVec.and_comm (~~~s.mask)]
    simp
  have hnet : s.network &&& s.mask = s.network :=
    calc s.network &&& s.mask = s.network &&& s.mask ||| s.network &&& ~~~s.mask := by
          rw [hs.aligned]; exact BitVec.or_zero.symm
      _ = s.network &&& (s.mask ||| ~~~s.mask) := BitVec.and_or_distrib_left.symm
      _ = s.network &&& BitVec.allOnes 32 := by rw [BitVec.or_not_self]
      _ = s.network := BitVec.and_allOnes
  calc (s.network ||| h) &&& s.mask = s.mask &&& (s.network ||| h) := BitVec.and_comm ..
    _ = s.mask &&& s.network ||| s.mask &&& h := BitVec.and_or_distrib_left
    _ = s.network &&& s.mask ||| h &&& s.mask := by rw [BitVec.and_comm s.mask, BitVec.and_comm s.mask]
    _ = s.network := by rw [hnet, hmask]; exact BitVec.or_zero

end Subnet

end BloblyEmb.Netcfg
