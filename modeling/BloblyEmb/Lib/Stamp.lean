import Mathlib.Tactic.Common

/-!
# Time stamps

A stamp is a 64-bit count of microseconds that never runs backwards. What has passed since an
earlier stamp is a subtraction that does not wrap, so a comparison with it is one of numbers.
-/
namespace BloblyEmb.Stamp

variable {now last d : UInt64}

theorem toNat_elapsed (h : last ≤ now) : (now - last).toNat = now.toNat - last.toNat :=
  UInt64.toNat_sub_of_le _ _ h

theorem le_elapsed_iff (h : last ≤ now) : d ≤ now - last ↔ last.toNat + d.toNat ≤ now.toNat := by
  have hle := UInt64.le_iff_toNat_le.mp h
  rw [UInt64.le_iff_toNat_le, toNat_elapsed h]
  omega

theorem lt_elapsed_iff (h : last ≤ now) : d < now - last ↔ last.toNat + d.toNat < now.toNat := by
  have hle := UInt64.le_iff_toNat_le.mp h
  rw [UInt64.lt_iff_toNat_lt, toNat_elapsed h]
  omega

end BloblyEmb.Stamp
