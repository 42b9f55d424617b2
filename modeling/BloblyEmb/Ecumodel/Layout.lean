import Mathlib.Algebra.Order.Ring.Nat
import Mathlib.Data.List.Sort
import Mathlib.Data.String.Basic
import Mathlib.Algebra.BigOperators.Group.List.Basic

/-!
# The payload of an event

What the configuration of a node declares (`ecu.toml`), and the payload that `eth_layouts` derives of it:
signals in the order of their frame's list, the fields of a signal sorted by name, without a gap
(`tools/ecumodel/model.v`).
-/
namespace BloblyEmb.Ecumodel

/-- The wire width of a scalar type; no other type has one. -/
def scalarWidth (t : String) : ℕ :=
  if t ∈ ["bool", "u8", "i8"] then 1
  else if t ∈ ["u16", "i16"] then 2
  else if t ∈ ["u32", "i32", "f32"] then 4
  else if t ∈ ["u64", "i64", "f64"] then 8
  else 0

/-! ## The document -/

/-- Names and types of fields, in the order in which they are declared. -/
structure Fields where
  entries : List (String × String)
  /-- A table has a key once. -/
  nodup : (entries.map Prod.fst).Nodup

/-- A signal; an endpoint that is left out has no key. -/
structure Signal where
  name : String
  fromKey : Option String := none
  toKey : Option String := none
  fields : Option Fields

structure Handler where
  reads : List String := []
  writes : List String := []

structure Fb where
  thread : String
  handlers : List Handler

structure Partition where
  name : String
  threads : List String
  ownImage : Bool := false

structure Bus where
  name : String
  kind : String

/-- The table of a frame's protection: absent positions are -1. -/
structure FrameE2e where
  counterPos : Int := -1
  crcPos : Int := -1
  dataId : Option Int

structure Frame where
  name : String
  bus : String
  id : Int
  signals : List String
  e2e : Option FrameE2e := none

structure Doc where
  buses : List Bus
  partitions : List Partition
  fbs : List Fb
  signals : List Signal
  frames : List Frame

/-- The declaration of a signal that stands: the last of the name. -/
def Doc.signal (doc : Doc) (name : String) : Option Signal := doc.signals.reverse.find? (·.name = name)

/-- The first bus of the kind, or none. -/
def ethBusOf (doc : Doc) : String :=
  match doc.buses.find? (·.kind = "eth") with
  | some b => b.name
  | none => ""

/-! ## The layout -/

structure EthLayoutCell where
  frame : String
  id : Int
  sig : String
  field : String
  offset : ℕ
  width : ℕ
  typ : String
deriving DecidableEq

/-- The fields of a signal that may be on the wire: on a received one `lost` is the bridge's count. -/
def layoutFields (eth : String) (s : Signal) : List (String × String) :=
  match s.fields with
  | none => []
  | some fs => fs.entries.filter fun (n, _) => !(s.fromKey.getD "" = eth && n = "lost")

def typeOf (fields : List (String × String)) (n : String) : String := (fields.lookup n).getD ""

/-- The fields by their sorted names. -/
def sortedFields (fields : List (String × String)) : List (String × String) :=
  ((fields.map Prod.fst).insertionSort (· ≤ ·)).map fun n => (n, typeOf fields n)

/-- The cells of one signal from an offset on. -/
def fieldCells (f : Frame) (sig : String) : ℕ → List (String × String) → List EthLayoutCell
  | _, [] => []
  | off, (n, t) :: rest =>
    let w := scalarWidth t
    if w = 0 then fieldCells f sig off rest
    else
      { frame := f.name, id := f.id, sig := sig, field := n, offset := off, width := w, typ := t } ::
        fieldCells f sig (off + w) rest

def totalWidth (cells : List EthLayoutCell) : ℕ := (cells.map (·.width)).sum

def signalCells (doc : Doc) (eth : String) (f : Frame) : ℕ → List String → List EthLayoutCell
  | _, [] => []
  | off, sname :: rest =>
    match doc.signal sname with
    | none => signalCells doc eth f off rest
    | some s =>
      let cells := fieldCells f sname off (sortedFields (layoutFields eth s))
      cells ++ signalCells doc eth f (off + totalWidth cells) rest

def frameCells (doc : Doc) (eth : String) (f : Frame) : List EthLayoutCell :=
  signalCells doc eth f 0 f.signals

def ethLayouts (doc : Doc) : List EthLayoutCell :=
  let eth := ethBusOf doc
  if eth = "" then [] else (doc.frames.filter (·.bus = eth)).flatMap (frameCells doc eth)

/-! ## The cells tile the payload -/

/-- Cells that follow each other from an offset on, none of them empty. -/
def Tiles : ℕ → List EthLayoutCell → Prop
  | _, [] => True
  | off, c :: cs => c.offset = off ∧ 0 < c.width ∧ Tiles (off + c.width) cs

theorem Tiles.append {off : ℕ} {l l' : List EthLayoutCell} (h : Tiles off l)
    (h' : Tiles (off + totalWidth l) l') : Tiles off (l ++ l') := by
  induction l generalizing off with
  | nil => simpa [totalWidth] using h'
  | cons c cs ih =>
    refine ⟨h.1, h.2.1, ih h.2.2 ?_⟩
    simpa [totalWidth, Nat.add_assoc] using h'

theorem fieldCells_tiles (f : Frame) (sig : String) (off : ℕ) (l : List (String × String)) :
    Tiles off (fieldCells f sig off l) := by
  induction l generalizing off with
  | nil => trivial
  | cons p rest ih =>
    obtain ⟨n, t⟩ := p
    rw [fieldCells]
    split
    · exact ih off
    · exact ⟨rfl, by dsimp only; omega, ih _⟩

theorem signalCells_tiles (doc : Doc) (eth : String) (f : Frame) (off : ℕ) (l : List String) :
    Tiles off (signalCells doc eth f off l) := by
  induction l generalizing off with
  | nil => trivial
  | cons sname rest ih =>
    rw [signalCells]
    split
    · exact ih off
    · exact (fieldCells_tiles f sname off _).append (ih _)

/-! ## Their order and their width -/

/-- The fields of a signal that have a width, by name. -/
def wireFields (eth : String) (s : Signal) : List (String × String) :=
  (sortedFields (layoutFields eth s)).filter fun (_, t) => scalarWidth t ≠ 0

theorem fieldCells_fields (f : Frame) (sig : String) (off : ℕ) (l : List (String × String)) :
    (fieldCells f sig off l).map (fun c => (c.sig, c.field, c.typ)) =
      (l.filter fun (_, t) => scalarWidth t ≠ 0).map fun (n, t) => (sig, n, t) := by
  induction l generalizing off with
  | nil => rfl
  | cons p rest ih =>
    obtain ⟨n, t⟩ := p
    rw [fieldCells]
    dsimp only
    split
    · rename_i hw
      rw [ih, List.filter_cons_of_neg (by simp [hw])]
    · rename_i hw
      rw [List.map_cons, ih, List.filter_cons_of_pos (by simp [hw]), List.map_cons]

/-- The cells of a frame are the wire fields of its signals, in the order of the list. -/
theorem signalCells_fields (doc : Doc) (eth : String) (f : Frame) (off : ℕ) (l : List String) :
    (signalCells doc eth f off l).map (fun c => (c.sig, c.field, c.typ)) =
      l.flatMap fun sname => match doc.signal sname with
        | none => []
        | some s => (wireFields eth s).map fun (n, t) => (sname, n, t) := by
  induction l generalizing off with
  | nil => rfl
  | cons sname rest ih =>
    rw [signalCells, List.flatMap_cons]
    cases doc.signal sname with
    | none => exact ih off
    | some s =>
      dsimp only
      rw [List.map_append, ih, fieldCells_fields]
      rfl

theorem typeOf_of_mem {fields : List (String × String)} (h : (fields.map Prod.fst).Nodup)
    {p : String × String} (hp : p ∈ fields) : typeOf fields p.1 = p.2 := by
  induction fields with
  | nil => cases hp
  | cons q fields ih =>
    rw [List.map_cons, List.nodup_cons] at h
    rcases List.mem_cons.mp hp with rfl | hmem
    · obtain ⟨k, v⟩ := p
      rw [typeOf, List.lookup_cons_self]
      simp only [Option.getD_some]
    · obtain ⟨k, v⟩ := q
      have hne : p.1 ≠ k := fun he => h.1 (List.mem_map.mpr ⟨p, hmem, he⟩)
      have hbeq : (p.1 == k) = false := beq_false_of_ne hne
      have hlook : List.lookup p.1 ((k, v) :: fields) = List.lookup p.1 fields := by
        simp only [List.lookup_cons, hbeq]
      rw [typeOf, hlook]
      exact ih h.2 hmem

/-- Sorting rearranges the fields. -/
theorem sortedFields_perm {fields : List (String × String)} (h : (fields.map Prod.fst).Nodup) :
    (sortedFields fields).Perm fields := by
  have hmap : (fields.map Prod.fst).map (fun n => (n, typeOf fields n)) = fields := by
    rw [List.map_map]
    conv_rhs => rw [← List.map_id fields]
    exact List.map_congr_left fun p hp => Prod.ext rfl (typeOf_of_mem h hp)
  have hperm := (List.perm_insertionSort (· ≤ ·) (fields.map Prod.fst)).map fun n => (n, typeOf fields n)
  rwa [hmap] at hperm

theorem sortedFields_pairwise {fields : List (String × String)} (h : (fields.map Prod.fst).Nodup) :
    (sortedFields fields).Pairwise fun a b => a.1 < b.1 := by
  rw [sortedFields, List.pairwise_map]
  have hsorted := List.pairwise_insertionSort (· ≤ ·) (fields.map Prod.fst)
  have hnodup : ((fields.map Prod.fst).insertionSort (· ≤ ·)).Nodup :=
    (List.perm_insertionSort _ _).nodup_iff.mpr h
  exact (hsorted.and hnodup).imp fun hab => lt_of_le_of_ne hab.1 hab.2

theorem layoutFields_nodup (eth : String) (s : Signal) : ((layoutFields eth s).map Prod.fst).Nodup := by
  unfold layoutFields
  split
  · exact List.nodup_nil
  · rename_i fs _
    exact fs.nodup.sublist (List.filter_sublist.map _)

theorem wireFields_pairwise (eth : String) (s : Signal) :
    (wireFields eth s).Pairwise fun a b => a.1 < b.1 :=
  (sortedFields_pairwise (layoutFields_nodup eth s)).filter _

/-- Lists that are sorted by name and have the same fields are the same. -/
theorem eq_of_sorted {l l' : List (String × String)} (hperm : l.Perm l')
    (h : l.Pairwise fun a b => a.1 < b.1) (h' : l'.Pairwise fun a b => a.1 < b.1) : l = l' := by
  have hanti : ∀ a b, a ∈ l → b ∈ l' → a.1 < b.1 → b.1 < a.1 → a = b :=
    fun a b _ _ hab hba => absurd hab (not_lt_of_gt hba)
  exact List.Perm.eq_of_pairwise hanti h h' hperm

end BloblyEmb.Ecumodel
