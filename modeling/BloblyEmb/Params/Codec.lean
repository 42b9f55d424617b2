import BloblyEmb.Params.Coding
import Mathlib.Tactic.IntervalCases

/-!
# Records and values

The bytes of a value and the value of its bytes, for the widths that a field may have.
-/
namespace BloblyEmb.Params

/-- A field of 1, 2 or 4 bytes. -/
def Field.Formed (f : Field) : Prop := f.width = 1 ∨ f.width = 2 ∨ f.width = 4

instance (f : Field) : Decidable f.Formed := inferInstanceAs (Decidable (_ ∨ _))

namespace Field

variable {f : Field} {bs : List UInt8}

theorem length_encode (f : Field) (v : ℤ) : (f.encode v).length = f.width.toNat := by
  simp [encode]

theorem byte_eq {n : ℕ} {b : UInt8} (h : n % 256 = b.toNat) : UInt8.ofNat n = b := by
  apply UInt8.toNat_inj.mp
  rw [UInt8.toNat_ofNat']
  exact h

/-- A value read from its bytes has those bytes. -/
theorem encode_decode (hf : f.Formed) (hlen : bs.length = f.width.toNat) :
    f.encode (f.decode bs) = bs := by
  rcases hf with hw | hw | hw
  · obtain ⟨a, rfl⟩ : ∃ a, bs = [a] := List.length_eq_one_iff.mp (by simpa [hw] using hlen)
    have ha := a.toNat_lt
    have hn : f.width.toNat = 1 := by rw [hw]; rfl
    have hrange : List.range 1 = [0] := rfl
    simp only [encode, decode, hn, hrange, List.map_cons, List.map_nil, List.foldl_cons,
      List.foldl_nil, List.cons.injEq, and_true]
    apply byte_eq
    norm_num
    split <;> omega
  · obtain ⟨a, b, rfl⟩ : ∃ a b, bs = [a, b] := List.length_eq_two.mp (by simpa [hw] using hlen)
    have ha := a.toNat_lt
    have hb := b.toNat_lt
    have hn : f.width.toNat = 2 := by rw [hw]; rfl
    have hrange : List.range 2 = [0, 1] := rfl
    simp only [encode, decode, hn, hrange, List.map_cons, List.map_nil, List.foldl_cons,
      List.foldl_nil, List.cons.injEq, and_true]
    constructor <;> apply byte_eq <;> norm_num <;> split <;> omega
  · obtain ⟨a, b, c, d, rfl⟩ : ∃ a b c d, bs = [a, b, c, d] := by
      rw [hw] at hlen
      match bs, hlen with
      | [a, b, c, d], _ => exact ⟨a, b, c, d, rfl⟩
    have ha := a.toNat_lt
    have hb := b.toNat_lt
    have hc := c.toNat_lt
    have hd := d.toNat_lt
    have hn : f.width.toNat = 4 := by rw [hw]; rfl
    have hrange : List.range 4 = [0, 1, 2, 3] := rfl
    simp only [encode, decode, hn, hrange, List.map_cons, List.map_nil, List.foldl_cons,
      List.foldl_nil, List.cons.injEq, and_true]
    refine ⟨?_, ?_, ?_, ?_⟩ <;> apply byte_eq <;> norm_num <;> split <;> omega

end Field

/-- The fields of a parameter: no more than a cell takes. -/
structure Config.Formed (c : Config) : Prop where
  count : c.fields.length ≤ maxFields
  fields : ∀ f ∈ c.fields, f.Formed

instance (c : Config) : Decidable c.Formed :=
  decidable_of_iff (c.fields.length ≤ maxFields ∧ ∀ f ∈ c.fields, f.Formed)
    ⟨fun h => ⟨h.1, h.2⟩, fun h => ⟨h.count, h.fields⟩⟩

theorem length_decodeFields (fs : List Field) (bs : List UInt8) :
    (decodeFields fs bs).length = fs.length := by
  induction fs generalizing bs with
  | nil => rfl
  | cons f fs ih => simp [decodeFields, ih]

theorem encode_decodeFields {fs : List Field} (hfs : ∀ f ∈ fs, f.Formed) {bs : List UInt8}
    (hlen : bs.length = (fs.map fun f => f.width.toNat).sum) :
    encodeFields fs (decodeFields fs bs) = bs := by
  induction fs generalizing bs with
  | nil => exact (List.eq_nil_of_length_eq_zero hlen).symm
  | cons f fs ih =>
    rw [List.map_cons, List.sum_cons] at hlen
    have htake : (bs.take f.width.toNat).length = f.width.toNat := by simp; omega
    have hdrop : (bs.drop f.width.toNat).length = (fs.map fun f => f.width.toNat).sum := by
      simp
      omega
    simp only [decodeFields, encodeFields]
    rw [Field.encode_decode (hfs f (by simp)) htake, ih (fun g hg => hfs g (by simp [hg])) hdrop,
      List.take_append_drop]

namespace Config

variable {c : Config} {bs : List UInt8}

theorem length_encode {v : List ℤ} (hv : v.length = c.fields.length) :
    (c.encode v).length = c.width := by
  obtain ⟨did, id, version, fields, applyReset⟩ := c
  simp only [encode, width] at *
  induction fields generalizing v with
  | nil => cases v <;> rfl
  | cons f fs ih =>
    cases v with
    | nil => simp at hv
    | cons x v =>
      rw [List.length_cons, List.length_cons] at hv
      simp only [encodeFields, List.length_append, Field.length_encode, List.map_cons,
        List.sum_cons]
      rw [ih (by omega)]

theorem length_decode (c : Config) (bs : List UInt8) : (c.decode bs).length = c.fields.length :=
  length_decodeFields c.fields bs

theorem encode_decode (hc : c.Formed) (hlen : bs.length = c.width) : c.encode (c.decode bs) = bs :=
  encode_decodeFields hc.fields hlen

theorem length_header (c : Config) : c.header.length = recordFixed + c.fields.length := by
  simp [header, recordFixed]
  omega

theorem width_le (hc : c.Formed) : c.width ≤ 4 * c.fields.length := by
  obtain ⟨did, id, version, fields, applyReset⟩ := c
  have hfs := hc.fields
  simp only [width] at *
  clear hc
  induction fields with
  | nil => simp
  | cons f fs ih =>
    have hrest := ih fun g hg => hfs g (by simp [hg])
    have hf : f.width.toNat ≤ 4 := by rcases hfs f (by simp) with h | h | h <;> simp [h]
    simp only [List.map_cons, List.sum_cons, List.length_cons]
    omega

/-- A value that a record may hold: one of some bytes, in range. -/
def Fits (c : Config) (v : List ℤ) : Prop :=
  c.inRange v = true ∧ ∃ bs : List UInt8, bs.length = c.width ∧ v = c.decode bs

theorem Fits.decode_encode {v : List ℤ} (hv : c.Fits v) (hc : c.Formed) :
    c.decode (c.encode v) = v := by
  obtain ⟨-, bs, hlen, rfl⟩ := hv
  rw [encode_decode hc hlen]

theorem Fits.length {v : List ℤ} (hv : c.Fits v) : v.length = c.fields.length := by
  obtain ⟨-, bs, -, rfl⟩ := hv
  exact c.length_decode bs

theorem Fits.length_record {v : List ℤ} (hv : c.Fits v) (hc : c.Formed) :
    (c.record v).length = c.header.length + c.width ∧ (c.record v).length ≤ maxRecord := by
  have hwidth := width_le hc
  have hcount := hc.count
  have hlen : (c.record v).length = c.header.length + c.width := by
    simp [record, length_encode hv.length]
  refine ⟨hlen, ?_⟩
  rw [hlen, length_header]
  simp only [maxRecord, maxValue, maxFields] at *
  omega

/-- A record is accepted under its own schema, for its own value. -/
theorem Fits.accepts {v : List ℤ} (hv : c.Fits v) (hc : c.Formed) :
    c.accepts (c.record v) = some v := by
  have hlen := (hv.length_record hc).1
  have htake : (c.record v).take c.header.length = c.header := by simp [record]
  have hdrop : c.decode ((c.record v).drop c.header.length) = v := by
    rw [record, List.drop_left, hv.decode_encode hc]
  simp only [Config.accepts, hlen, htake, hdrop, hv.1, and_self, if_true]

theorem accepts_spec {rec : List UInt8} {v : List ℤ} (h : c.accepts rec = some v) :
    rec = c.header ++ rec.drop c.header.length ∧
      (rec.drop c.header.length).length = c.width ∧ c.inRange v = true ∧
      v = c.decode (rec.drop c.header.length) := by
  simp only [accepts] at h
  split at h
  · rename_i hok
    obtain ⟨hlen, htake, hrange⟩ := hok
    obtain rfl := Option.some.inj h
    refine ⟨?_, by simp [hlen], hrange, rfl⟩
    conv_lhs => rw [← List.take_append_drop c.header.length rec, htake]
  · simp at h

end Config

end BloblyEmb.Params
