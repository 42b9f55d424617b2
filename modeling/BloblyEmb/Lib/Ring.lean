import Mathlib.Algebra.Order.Ring.Nat
import Mathlib.Data.List.GetD
import Mathlib.Logic.Function.Basic
import Mathlib.Tactic.Common

/-!
# Rings with free-running cursors

A ring of `n` slots between one writer and one reader: two 32-bit cursors that only count up, and
wrap, and are reduced modulo `n` where a slot is accessed. The contents are the slots from the tail
to the head. An entry is stored behind the head first and belongs to the contents once the head
has moved.
-/
namespace BloblyEmb.Ring

universe u
variable {α : Type u}

/-- The slot of the entry that is `k` behind the tail. -/
def slot (n tail : UInt32) (k : ℕ) : UInt32 := (tail + UInt32.ofNat k) % n

def entries (mem : UInt32 → α) (n tail head : UInt32) : List α :=
  (List.range (head - tail).toNat).map fun k => mem (slot n tail k)

/-- No entry lies in the slot behind the head. -/
def Clear (n tail head : UInt32) : Prop := ∀ k < (head - tail).toNat, slot n tail k ≠ head % n

instance (n tail head : UInt32) : Decidable (Clear n tail head) :=
  inferInstanceAs (Decidable (∀ k < (head - tail).toNat, slot n tail k ≠ head % n))

variable {mem : UInt32 → α} {n tail head : UInt32} {v : α}

@[simp] theorem length_entries : (entries mem n tail head).length = (head - tail).toNat := by
  simp [entries]

theorem toNat_sub (a b : UInt32) : (a - b).toNat = (2 ^ 32 - b.toNat + a.toNat) % 2 ^ 32 :=
  UInt32.toNat_sub a b

theorem entries_eq_nil_iff : entries mem n tail head = [] ↔ tail = head := by
  rw [← List.length_eq_zero_iff, length_entries, toNat_sub, ← UInt32.toNat_inj]
  have htail := tail.toNat_lt
  have hhead := head.toNat_lt
  omega

theorem entries_store (h : Clear n tail head) :
    entries (Function.update mem (head % n) v) n tail head = entries mem n tail head := by
  apply List.map_congr_left
  intro k hk
  exact Function.update_of_ne (h k (List.mem_range.mp hk)) _ _

theorem mem_entries_store (h : ¬Clear n tail head) :
    v ∈ entries (Function.update mem (head % n) v) n tail head := by
  simp only [Clear, ne_eq, not_forall, not_not] at h
  obtain ⟨k, hk, heq⟩ := h
  refine List.mem_map.mpr ⟨k, List.mem_range.mpr hk, ?_⟩
  rw [heq, Function.update_self]

theorem add_sub_ofNat (tail head : UInt32) : tail + UInt32.ofNat (head - tail).toNat = head := by
  rw [UInt32.ofNat_toNat]
  rw [UInt32.add_comm, UInt32.sub_add_cancel]

theorem entries_push (h : (head - tail).toNat + 1 < 2 ^ 32) :
    entries mem n tail (head + 1) = entries mem n tail head ++ [mem (head % n)] := by
  have hcount : (head + 1 - tail).toNat = (head - tail).toNat + 1 := by
    rw [toNat_sub] at h ⊢
    rw [UInt32.toNat_add, toNat_sub, show (1 : UInt32).toNat = 1 by rfl]
    have htail := tail.toNat_lt
    have hhead := head.toNat_lt
    omega
  simp only [entries, hcount, List.range_succ, List.map_append, List.map_singleton]
  rw [slot, add_sub_ofNat]

theorem entries_pop (h : tail ≠ head) :
    entries mem n tail head = mem (tail % n) :: entries mem n (tail + 1) head := by
  have hcount : (head - tail).toNat = (head - (tail + 1)).toNat + 1 := by
    rw [toNat_sub, toNat_sub, UInt32.toNat_add, show (1 : UInt32).toNat = 1 by rfl]
    have hne : tail.toNat ≠ head.toNat := fun heq => h (UInt32.toNat_inj.mp heq)
    have htail := tail.toNat_lt
    have hhead := head.toNat_lt
    omega
  simp only [entries, hcount, List.range_succ_eq_map, List.map_cons, List.map_map]
  congr 1
  · simp [slot]
  · apply List.map_congr_left
    intro k _
    have hcursor : tail + UInt32.ofNat (k + 1) = tail + 1 + UInt32.ofNat k := by
      rw [UInt32.ofNat_add]
      ac_rfl
    simp only [Function.comp_apply, slot, Nat.succ_eq_add_one, hcursor]

/-- Numbers less than `n` apart are in different slots. -/
theorem mod_ne_of_near {a b n : ℕ} (hlt : a < b) (hnear : b < a + n) : a % n ≠ b % n := by
  intro heq
  have hzero := Nat.sub_mod_eq_zero_of_mod_eq heq.symm
  rw [Nat.mod_eq_of_lt (by omega)] at hzero
  omega

theorem toNat_slot (n tail : UInt32) (k : ℕ) :
    (slot n tail k).toNat = (tail.toNat + k) % 2 ^ 32 % n.toNat := by
  rw [slot, UInt32.toNat_mod, UInt32.toNat_add, UInt32.toNat_ofNat', Nat.add_mod_mod]

/-- While the count divides the range of the cursors, a ring that is not full is clear. -/
theorem clear_of_dvd (hn : n.toNat ∣ 2 ^ 32) (h : (head - tail).toNat < n.toNat) :
    Clear n tail head := by
  intro k hk heq
  have hsum := congrArg UInt32.toNat (add_sub_ofNat tail head)
  have hnat := congrArg UInt32.toNat heq
  rw [UInt32.toNat_add, UInt32.ofNat_toNat] at hsum
  rw [toNat_slot, UInt32.toNat_mod, Nat.mod_mod_of_dvd _ hn, ← hsum, Nat.mod_mod_of_dvd _ hn]
    at hnat
  exact mod_ne_of_near (by omega) (by omega) hnat

end BloblyEmb.Ring
