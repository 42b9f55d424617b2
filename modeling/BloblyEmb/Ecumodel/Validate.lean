import Mathlib.Algebra.Order.Ring.Nat
import BloblyEmb.Ecumodel.Layout
import Mathlib.Data.List.Dedup
import Mathlib.Algebra.Order.BigOperators.Group.List

/-!
# The check of the events

`validate_someip` decides for itself which fields of a signal are on the wire, and sizes the payload with
them (`tools/ecumodel/model.v`). The endpoints of a signal are as written, or follow the FBs
(`tools/ecumodel/endpoints.v`). An issue is named by what it is about: its text is not modelled.
-/
namespace BloblyEmb.Ecumodel

/-! ## Endpoints -/

namespace Doc

variable (doc : Doc)

def threadPart (t : String) : Option String :=
  (doc.partitions.reverse.find? fun p => t ∈ p.threads).map (·.name)

/-- The partition of an FB, through its thread. -/
def part (fb : Fb) : String := (doc.threadPart fb.thread).getD ""

def partNames : List String := doc.partitions.map (·.name)

/-- The partition that an endpoint names, itself or by a thread. -/
def partOf (ep : String) : String := if ep ∈ doc.partNames then ep else (doc.threadPart ep).getD ""

/-- The FBs of a partition that use a signal. -/
def placed (uses : Handler → List String) (name : String) : List Fb :=
  doc.fbs.filter fun fb => fb.handlers.any (fun h => name ∈ uses h) && doc.part fb ≠ ""

def ownImage (name : String) : Bool := doc.partitions.any fun p => p.name = name && p.ownImage

end Doc

/-- A reader in another partition than the producer's before any reader. -/
def pickReader (fromPart : String) (group : List String) : Option String :=
  match group.find? (· ≠ fromPart) with
  | some r => some r
  | none => group.head?

def consumerPartition (fromPart : String) (readers : List String) (ownImage : String → Bool) : String :=
  match pickReader fromPart (readers.filter fun r => !ownImage r) with
  | some r => r
  | none => (pickReader fromPart readers).getD ""

def signalFrom (doc : Doc) (s : Signal) : String :=
  match s.fromKey with
  | some f => f
  | none =>
    match ((doc.placed Handler.writes s.name).map doc.part).dedup with
    | [p] => p
    | _ => ""

def signalTo (doc : Doc) (s : Signal) : String :=
  match s.toKey with
  | some t => t
  | none =>
    let fromPart := doc.partOf (signalFrom doc s)
    let c := consumerPartition fromPart ((doc.placed Handler.reads s.name).map doc.part) doc.ownImage
    if c = "" then (if fromPart ≠ "" then signalFrom doc s else "") else c

/-- The endpoints of a name; one that is empty has none. -/
def ends (doc : Doc) (name : String) : String × String :=
  if name = "" then ("", "")
  else
    match doc.signal name with
    | some s => (signalFrom doc s, signalTo doc s)
    | none => ("", "")

/-! ## Sizes -/

/-- What the bridge adds to a received signal. -/
def rxMeta (eth source : String) (field : String × String) : Bool :=
  source = eth && ((field.1 = "status" && field.2 = "RxStatus") ||
    (field.1 = "lost" && (field.2 = "u16" || field.2 = "u32")))

def wireSize (eth source : String) (fs : Fields) : ℕ :=
  (fs.entries.map fun p => if rxMeta eth source p then 0 else scalarWidth p.2).sum

def unsized (eth source : String) (fs : Fields) : Bool :=
  fs.entries.any fun p => !rxMeta eth source p && scalarWidth p.2 = 0

/-- The size in memory so far, and the widest alignment. -/
def memStep (eth source : String) (acc : ℕ × ℕ) (p : String × String) : ℕ × ℕ :=
  let w := scalarWidth p.2
  if rxMeta eth source p && p.1 = "status" then (acc.1 + 1, acc.2)
  else if w = 0 then acc
  else ((acc.1 + w - 1) / w * w + w, max acc.2 w)

def memSize (eth source : String) (fs : Fields) : ℕ :=
  let (size, align) := fs.entries.foldl (memStep eth source) (0, 1)
  (size + align - 1) / align * align

/-- The fields that are sized: of the last declaration of the name that has any. -/
def sizedFields (doc : Doc) (name : String) : Option Fields :=
  (doc.signals.reverse.find? fun s => s.name = name && s.fields.isSome).bind (·.fields)

def sigSize (doc : Doc) (eth name : String) : ℕ :=
  match sizedFields doc name with
  | some fs => wireSize eth (ends doc name).1 fs
  | none => 0

def sigMem (doc : Doc) (eth name : String) : ℕ :=
  match sizedFields doc name with
  | some fs => memSize eth (ends doc name).1 fs
  | none => 0

def badField (doc : Doc) (eth name : String) : Bool :=
  doc.signals.any fun s => s.name = name && match s.fields with
    | some fs => unsized eth (ends doc name).1 fs
    | none => false

/-- The size of a frame's fields, without its protection. -/
def payloadSize (doc : Doc) (eth : String) (f : Frame) : ℕ :=
  ((f.signals.filter fun n => (doc.signal n).isSome).map (sigSize doc eth)).sum

/-! ## The check -/

inductive Issue where
  /-- What a check reports that reads no size: spelling, ids, peers, timings, images and modules. -/
  | other (text : String)
  | ethBuses
  | notEth (frame : String)
  | noSignals (frame : String)
  | unknownSignal (frame signal : String)
  | rideTwice (signal : String)
  | bothSides (signal : String)
  | neitherSide (frame signal : String)
  | busToBus (signal : String)
  | noEndpoint (signal : String)
  | contexts (signal : String)
  | elsewhere (signal : String)
  | unused (signal : String)
  | wrongSide (signal : String)
  | badField (signal : String)
  | tooBig (signal : String)
  | mixed (frame : String)
  | trailer (frame : String)
  | dataId (frame : String)
  | tooLong (frame : String)
deriving DecidableEq

/-- The threads whose handlers use a signal. -/
def threadsOf (doc : Doc) (uses : Handler → List String) (name : String) : List String :=
  ((doc.fbs.filter fun fb => fb.handlers.any fun h => name ∈ uses h).map (·.thread)).dedup

/-- The end of a channel in the application: one context of `mine`, and none of `theirs`. -/
def sideIssues (doc : Doc) (name other : String) (mine theirs : List String) : List Issue :=
  if other ∈ doc.buses.map (·.name) then [.busToBus name]
  else
    let place := match doc.threadPart other with
      | some p => p
      | none => if other ∈ doc.partNames then other else ""
    (if (doc.threadPart other).isNone ∧ other ∉ doc.partNames then [.noEndpoint name] else []) ++
    (match mine with
      | [] => if place ≠ "" then [.unused name] else []
      | [t] => if place ≠ "" ∧ (doc.threadPart t).getD "" ≠ place then [.elsewhere name] else []
      | _ => [.contexts name]) ++
    if theirs ≠ [] then [.wrongSide name] else []

def signalIssues (doc : Doc) (eth : String) (f : Frame) (seen : List String) (name : String) :
    List Issue :=
  if (doc.signal name).isNone then [.unknownSignal f.name name]
  else
    let source := (ends doc name).1
    let sink := (ends doc name).2
    (if name ∈ seen then [.rideTwice name] else []) ++
    (if source = eth ∧ sink = eth then [.bothSides name]
      else if sink = eth then
        sideIssues doc name source (threadsOf doc Handler.writes name) (threadsOf doc Handler.reads name)
      else if source = eth then
        sideIssues doc name sink (threadsOf doc Handler.reads name) (threadsOf doc Handler.writes name)
      else [.neitherSide f.name name]) ++
    (if badField doc eth name then [.badField name] else []) ++
    if 64 < sigMem doc eth name then [.tooBig name] else []

/-- The signals of a frame, with those that ride some frame so far. -/
def signalsIssues (doc : Doc) (eth : String) (f : Frame) : List String → List String → List Issue
  | _, [] => []
  | seen, name :: rest =>
    signalIssues doc eth f seen name ++ signalsIssues doc eth f (name :: seen) rest

def e2eIssues (f : Frame) (size : ℕ) : List Issue :=
  match f.e2e with
  | none => []
  | some e =>
    (if e.counterPos ≠ size ∨ e.crcPos ≠ size + 1 then [.trailer f.name] else []) ++
    match e.dataId with
    | some d => if 0 ≤ d ∧ d ≤ 0xFFFF then [] else [.dataId f.name]
    | none => [.dataId f.name]

def frameIssues (doc : Doc) (eth : String) (seen : List String) (f : Frame) : List Issue :=
  if f.signals = [] then [.noSignals f.name]
  else
    let size := payloadSize doc eth f
    let tx := f.signals.any fun n => (ends doc n).1 ≠ eth && (ends doc n).2 = eth
    let rx := f.signals.any fun n => (ends doc n).1 = eth && (ends doc n).2 ≠ eth
    signalsIssues doc eth f seen f.signals ++
    (if tx && rx then [.mixed f.name] else []) ++
    e2eIssues f size ++
    if 64 < size + (if f.e2e.isSome then 2 else 0) then [.tooLong f.name] else []

def framesIssues (doc : Doc) (eth : String) : List String → List Frame → List Issue
  | _, [] => []
  | seen, f :: rest =>
    if eth = "" ∨ f.bus ≠ eth then framesIssues doc eth seen rest
    else frameIssues doc eth seen f ++ framesIssues doc eth (f.signals ++ seen) rest

/-- The check, with what the checks that read no size report. -/
def validateSomeip (doc : Doc) (others : List Issue) : List Issue :=
  let ethBuses := doc.buses.filter (·.kind = "eth")
  let eth := match ethBuses with
    | [b] => b.name
    | _ => ""
  others ++ (if 1 < ethBuses.length then [.ethBuses] else []) ++ framesIssues doc eth [] doc.frames

/-! ## What an accepted document has -/

theorem framesIssues_clean {doc : Doc} {eth : String} (heth : eth ≠ "") {f : Frame} (hf : f.bus = eth) :
    ∀ {frames : List Frame} {seen : List String}, framesIssues doc eth seen frames = [] → f ∈ frames →
      ∃ seen', frameIssues doc eth seen' f = [] := by
  intro frames
  induction frames with
  | nil => intro seen _ hmem; cases hmem
  | cons g rest ih =>
    intro seen h hmem
    rw [framesIssues] at h
    split at h
    case isTrue hskip =>
      rcases List.mem_cons.mp hmem with rfl | hmem
      · exact absurd hskip (by simp [heth, hf])
      · exact ih h hmem
    case isFalse =>
      rw [List.append_eq_nil_iff] at h
      rcases List.mem_cons.mp hmem with rfl | hmem
      · exact ⟨seen, h.1⟩
      · exact ih h.2 hmem

theorem signalsIssues_clean {doc : Doc} {eth : String} {f : Frame} {name : String} :
    ∀ {names seen : List String}, signalsIssues doc eth f seen names = [] → name ∈ names →
      ∃ seen', signalIssues doc eth f seen' name = [] := by
  intro names
  induction names with
  | nil => intro seen _ hmem; cases hmem
  | cons n rest ih =>
    intro seen h hmem
    rw [signalsIssues, List.append_eq_nil_iff] at h
    rcases List.mem_cons.mp hmem with rfl | hmem
    · exact ⟨seen, h.1⟩
    · exact ih h.2 hmem

/-- The segment that the check and the layout see. -/
theorem validateSomeip_clean {doc : Doc} {others : List Issue} (h : validateSomeip doc others = []) :
    framesIssues doc (ethBusOf doc) [] doc.frames = [] := by
  dsimp only [validateSomeip] at h
  simp only [List.append_eq_nil_iff] at h
  obtain ⟨⟨-, hone⟩, hframes⟩ := h
  have heth : ethBusOf doc = match doc.buses.filter (·.kind = "eth") with
      | [b] => b.name
      | _ => "" := by
    unfold ethBusOf
    rw [← List.head?_filter]
    rcases hb : doc.buses.filter (·.kind = "eth") with _ | ⟨b, _ | ⟨c, bs⟩⟩
    · rw [hb]
      rfl
    · rw [hb]
      rfl
    · simp [hb] at hone
  rw [heth]
  exact hframes

/-- The declaration of a listed signal is on the wire as its endpoint says. -/
theorem signalIssues_clean {doc : Doc} {eth : String} (heth : eth ≠ "") {f : Frame} {seen : List String}
    {name : String} (h : signalIssues doc eth f seen name = []) :
    ∃ s, doc.signal name = some s ∧ ((ends doc name).1 = eth ↔ s.fromKey.getD "" = eth) := by
  unfold signalIssues at h
  split at h
  · cases h
  · rename_i hknown
    obtain ⟨s, hs⟩ := Option.ne_none_iff_exists'.mp (by simpa using hknown)
    refine ⟨s, hs, ?_⟩
    dsimp only at h
    simp only [List.append_eq_nil_iff] at h
    obtain ⟨⟨⟨-, hdir⟩, -⟩, -⟩ := h
    have hname : name ≠ "" := by
      rintro rfl
      simp [ends, Ne.symm heth] at hdir
    have hfrom : (ends doc name).1 = signalFrom doc s := by rw [ends, if_neg hname, hs]
    rw [hfrom]
    cases hkey : s.fromKey with
    | some k => simp [signalFrom, hkey]
    | none =>
      refine iff_of_false (fun hderived => ?_) (by simpa using Ne.symm heth)
      -- a derived source is a writer's partition, and the bridge is the only writer of what it receives
      rw [← hfrom] at hderived
      split at hdir
      · cases hdir
      rename_i hboth
      rw [if_neg (fun hsink => hboth ⟨hderived, hsink⟩)] at hdir
      unfold sideIssues at hdir
      split at hdir
      · cases hdir
      dsimp only at hdir
      rw [List.append_eq_nil_iff] at hdir
      have hwriters : threadsOf doc Handler.writes name = [] := by
        by_contra hne
        rw [if_pos hne] at hdir
        exact absurd hdir.2 (by simp)
      have hnone : (doc.placed Handler.writes s.name) = [] := by
        have hsname : s.name = name := by simpa using List.find?_some hs
        rw [hsname]
        rw [Doc.placed, List.filter_eq_nil_iff]
        intro fb hfb hplaced
        rw [Bool.and_eq_true] at hplaced
        have hmem : fb.thread ∈ threadsOf doc Handler.writes name :=
          List.mem_dedup.mpr (List.mem_map_of_mem (List.mem_filter.mpr ⟨hfb, hplaced.1⟩))
        rw [hwriters] at hmem
        cases hmem
      rw [hfrom, signalFrom, hkey, hnone] at hderived
      exact heth hderived.symm

/-! ## The two sizes of a signal -/

/-- What the layout gives a signal. -/
def layoutSize (doc : Doc) (eth name : String) : ℕ :=
  match doc.signal name with
  | none => 0
  | some s => ((layoutFields eth s).map fun p => scalarWidth p.2).sum

theorem totalWidth_fieldCells (f : Frame) (sig : String) (off : ℕ) (l : List (String × String)) :
    totalWidth (fieldCells f sig off l) = (l.map fun p => scalarWidth p.2).sum := by
  induction l generalizing off with
  | nil => rfl
  | cons p rest ih =>
    obtain ⟨n, t⟩ := p
    rw [fieldCells, List.map_cons, List.sum_cons, ← ih (off + scalarWidth t)]
    split
    · rename_i hw
      simp [hw]
    · simp [totalWidth]

theorem totalWidth_signalCells (doc : Doc) (eth : String) (f : Frame) (off : ℕ) (l : List String) :
    totalWidth (signalCells doc eth f off l) = (l.map (layoutSize doc eth)).sum := by
  induction l generalizing off with
  | nil => rfl
  | cons name rest ih =>
    rw [signalCells, List.map_cons, List.sum_cons, layoutSize]
    cases doc.signal name with
    | none => simpa using ih off
    | some s =>
      have hsum := ((sortedFields_perm (layoutFields_nodup eth s)).map fun p => scalarWidth p.2).sum_eq
      have happ : ∀ l l' : List EthLayoutCell, totalWidth (l ++ l') = totalWidth l + totalWidth l' :=
        fun l l' => by simp [totalWidth]
      dsimp only
      rw [happ, ih, totalWidth_fieldCells, hsum]

/-- Sums of ordered terms are equal where the terms are. -/
theorem sum_eq_iff {α : Type} {g h : α → ℕ} {l : List α} (hle : ∀ x ∈ l, g x ≤ h x) :
    (l.map g).sum ≤ (l.map h).sum ∧ ((l.map g).sum = (l.map h).sum ↔ ∀ x ∈ l, g x = h x) := by
  induction l with
  | nil => simp
  | cons a l ih =>
    obtain ⟨hsum, hiff⟩ := ih fun x hx => hle x (List.mem_cons_of_mem _ hx)
    have ha := hle a List.mem_cons_self
    simp only [List.map_cons, List.sum_cons, List.forall_mem_cons]
    refine ⟨by omega, ⟨fun he => ?_, fun he => ?_⟩⟩
    · exact ⟨by omega, hiff.mp (by omega)⟩
    · rw [he.1, hiff.mpr he.2]

theorem find?_and {α : Type} {p q : α → Bool} {l : List α} {a : α} (h : l.find? p = some a)
    (hq : q a = true) : l.find? (fun x => p x && q x) = some a := by
  induction l with
  | nil => cases h
  | cons b l ih =>
    rw [List.find?_cons] at h ⊢
    cases hp : p b with
    | true =>
      rw [hp] at h
      obtain rfl := Option.some.inj h
      simp [hq]
    | false =>
      rw [hp] at h
      simpa using ih h

/-- The check and the layout leave out the same fields of a signal: of a received one the bridge's count,
which is of one of its two types; and the declaration that stands is the one that is sized. -/
structure Counted (doc : Doc) (eth name : String) (s : Signal) : Prop where
  lost : ∀ fs, s.fields = some fs → s.fromKey.getD "" = eth → ∀ t, ("lost", t) ∈ fs.entries →
    t = "u16" ∨ t = "u32" ∨ scalarWidth t = 0
  stands : s.fields = none → ∀ fs, sizedFields doc name = some fs → ∀ p ∈ fs.entries,
    rxMeta eth (ends doc name).1 p = true ∨ scalarWidth p.2 = 0

/-- What the layout gives a field. -/
def layoutWidth (received : Bool) (p : String × String) : ℕ :=
  if received && p.1 = "lost" then 0 else scalarWidth p.2

theorem layoutWidth_le {eth source : String} {received : Bool} (hrec : received = true ↔ source = eth)
    (p : String × String) :
    layoutWidth received p ≤ (if rxMeta eth source p then 0 else scalarWidth p.2) ∧
    (layoutWidth received p = (if rxMeta eth source p then 0 else scalarWidth p.2) ↔
      (received = true → p.1 = "lost" → p.2 = "u16" ∨ p.2 = "u32" ∨ scalarWidth p.2 = 0)) := by
  obtain ⟨n, t⟩ := p
  unfold layoutWidth rxMeta
  by_cases hr : received = true
  · have hs : source = eth := hrec.mp hr
    by_cases hn : n = "lost"
    · subst hn
      by_cases h16 : t = "u16" ∨ t = "u32"
      · have hsome : t = "u16" ∨ t = "u32" ∨ scalarWidth t = 0 := by tauto
        simp [hr, hs, h16, hsome]
      · have hne : ¬ (t = "u16" ∨ t = "u32" ∨ scalarWidth t = 0) ↔ scalarWidth t ≠ 0 := by tauto
        rw [not_or] at h16
        simp [hr, hs, h16.1, h16.2, eq_comm]
    · by_cases hst : n = "status" ∧ t = "RxStatus"
      · simp [hst.1, hst.2, scalarWidth]
      · rw [not_and_or] at hst
        rcases hst with h | h <;> simp [hr, hs, hn, h]
  · have hs : source ≠ eth := fun h => hr (hrec.mpr h)
    simp [hr, hs]

/-- The layout never gives a signal more than the check counts, and as much only where the two count the
same fields. -/
theorem layoutSize_le {doc : Doc} {eth name : String} {s : Signal} (hs : doc.signal name = some s)
    (hsrc : (ends doc name).1 = eth ↔ s.fromKey.getD "" = eth) :
    layoutSize doc eth name ≤ sigSize doc eth name ∧
      (layoutSize doc eth name = sigSize doc eth name ↔ Counted doc eth name s) := by
  rw [layoutSize, hs]
  dsimp only
  cases hfs : s.fields with
  | none =>
    have hzero : ((layoutFields eth s).map fun p => scalarWidth p.2).sum = 0 := by
      rw [layoutFields, hfs]
      rfl
    rw [hzero]
    refine ⟨Nat.zero_le _, fun h => ⟨fun fs hsome => by simp [hfs] at hsome, fun _ fs hsized p hp => ?_⟩,
      fun h => ?_⟩
    · rw [sigSize, hsized] at h
      have hall := (List.sum_eq_zero_iff.mp h.symm) _ (List.mem_map_of_mem hp)
      by_cases hmeta : rxMeta eth (ends doc name).1 p = true
      · exact Or.inl hmeta
      · rw [if_neg hmeta] at hall
        exact Or.inr hall
    · unfold sigSize
      split
      · rename_i fs hsized
        refine (List.sum_eq_zero_iff.mpr fun x hx => ?_).symm
        obtain ⟨p, hp, rfl⟩ := List.mem_map.mp hx
        rcases h.stands hfs fs hsized p hp with hmeta | hw
        · rw [if_pos hmeta]
        · rw [hw, ite_self]
      · rfl
  | some fs =>
    have hsized : sizedFields doc name = some fs := by
      have hfind := find?_and (q := fun s => s.fields.isSome) hs (by rw [hfs]; rfl)
      rw [sizedFields, hfind]
      exact hfs
    have hrec : decide (s.fromKey.getD "" = eth) = true ↔ (ends doc name).1 = eth := by
      rw [decide_eq_true_eq]
      exact hsrc.symm
    have hsum : ((layoutFields eth s).map fun p => scalarWidth p.2).sum =
        (fs.entries.map (layoutWidth (decide (s.fromKey.getD "" = eth)))).sum := by
      rw [layoutFields, hfs]
      dsimp only
      induction fs.entries with
      | nil => rfl
      | cons p rest ih =>
        rw [List.map_cons, List.sum_cons, ← ih, layoutWidth, List.filter_cons]
        split
        · rename_i hkeep
          rw [if_neg (by simpa [imp_iff_not_or] using hkeep), List.map_cons, List.sum_cons]
        · rename_i hdrop
          rw [if_pos (by simpa using hdrop), Nat.zero_add]
    obtain ⟨hle, hiff⟩ := sum_eq_iff (l := fs.entries)
      (g := layoutWidth (decide (s.fromKey.getD "" = eth)))
      (h := fun p => if rxMeta eth (ends doc name).1 p then 0 else scalarWidth p.2)
      fun p _ => (layoutWidth_le hrec p).1
    rw [hsum, sigSize, hsized]
    refine ⟨hle, hiff.trans ⟨fun h => ⟨fun fs' hfs' hfrom t ht => ?_, fun hnone => by simp [hfs] at hnone⟩,
      fun h p hp => (layoutWidth_le hrec p).2.mpr fun hr hn => ?_⟩⟩
    · obtain rfl := Option.some.inj (hfs.symm.trans hfs')
      exact (layoutWidth_le hrec ("lost", t)).2.mp (h _ ht) (decide_eq_true hfrom) rfl
    · exact h.lost fs hfs (by simpa using hr) p.2 (by rw [← hn]; exact hp)

/-! ## The layout of an accepted document -/

/-- What the payload of an event has to be, on the layout's side and on the check's. -/
structure Laid (doc : Doc) (eth : String) (f : Frame) : Prop where
  tiles : Tiles 0 (frameCells doc eth f)
  order : (frameCells doc eth f).map (fun c => (c.sig, c.field, c.typ)) =
    f.signals.flatMap fun sname => match doc.signal sname with
      | none => []
      | some s => (wireFields eth s).map fun (n, t) => (sname, n, t)
  sorted : ∀ sname s, doc.signal sname = some s → (wireFields eth s).Pairwise fun a b => a.1 < b.1
  total : totalWidth (frameCells doc eth f) = payloadSize doc eth f
  trailer : ∀ e, f.e2e = some e → e.counterPos = totalWidth (frameCells doc eth f) ∧
    e.crcPos = totalWidth (frameCells doc eth f) + 1
  bound : totalWidth (frameCells doc eth f) + (if f.e2e.isSome then 2 else 0) ≤ 64

/-- What an accepted frame has. -/
theorem frameIssues_clean {doc : Doc} {eth : String} (heth : eth ≠ "") {f : Frame} {seen : List String}
    (h : frameIssues doc eth seen f = []) :
    (∀ name ∈ f.signals, ∃ s, doc.signal name = some s ∧
      ((ends doc name).1 = eth ↔ s.fromKey.getD "" = eth)) ∧
    (∀ e, f.e2e = some e → e.counterPos = payloadSize doc eth f ∧ e.crcPos = payloadSize doc eth f + 1) ∧
    payloadSize doc eth f + (if f.e2e.isSome then 2 else 0) ≤ 64 := by
  unfold frameIssues at h
  split at h
  · cases h
  · dsimp only at h
    simp only [List.append_eq_nil_iff] at h
    obtain ⟨⟨⟨hsignals, -⟩, he2e⟩, hlong⟩ := h
    refine ⟨fun name hname => ?_, fun e he => ?_, ?_⟩
    · obtain ⟨seen', hs⟩ := signalsIssues_clean hsignals hname
      exact signalIssues_clean heth hs
    · rw [e2eIssues, he] at he2e
      dsimp only at he2e
      rw [List.append_eq_nil_iff] at he2e
      have htrailer := he2e.1
      split at htrailer
      · cases htrailer
      · rename_i hpos
        rwa [not_or, not_not, not_not] at hpos
    · by_contra hlt
      rw [if_pos (not_le.mp hlt)] at hlong
      cases hlong

theorem laid_iff {doc : Doc} {eth : String} (heth : eth ≠ "") {f : Frame} {seen : List String}
    (h : frameIssues doc eth seen f = []) :
    Laid doc eth f ↔ ∀ name ∈ f.signals, ∀ s, doc.signal name = some s → Counted doc eth name s := by
  obtain ⟨hsignals, htrailer, hbound⟩ := frameIssues_clean heth h
  have hle : ∀ name ∈ f.signals, layoutSize doc eth name ≤ sigSize doc eth name := fun name hname => by
    obtain ⟨s, hs, hsrc⟩ := hsignals name hname
    exact (layoutSize_le hs hsrc).1
  have hpayload : payloadSize doc eth f = (f.signals.map (sigSize doc eth)).sum := by
    have hall : f.signals.filter (fun n => (doc.signal n).isSome) = f.signals :=
      List.filter_eq_self.mpr fun name hname => by
        obtain ⟨s, hs, -⟩ := hsignals name hname
        rw [hs]
        rfl
    rw [payloadSize, hall]
  have htotal : totalWidth (frameCells doc eth f) = payloadSize doc eth f ↔
      ∀ name ∈ f.signals, ∀ s, doc.signal name = some s → Counted doc eth name s := by
    rw [frameCells, totalWidth_signalCells, hpayload, (sum_eq_iff hle).2]
    refine ⟨fun he name hname s hs => ?_, fun hc name hname => ?_⟩
    · obtain ⟨s', hs', hsrc⟩ := hsignals name hname
      obtain rfl := Option.some.inj (hs.symm.trans hs')
      exact (layoutSize_le hs hsrc).2.mp (he name hname)
    · obtain ⟨s, hs, hsrc⟩ := hsignals name hname
      exact (layoutSize_le hs hsrc).2.mpr (hc name hname s hs)
  refine ⟨fun hlaid => htotal.mp hlaid.total, fun hc => ?_⟩
  have he := htotal.mpr hc
  exact ⟨signalCells_tiles doc eth f 0 f.signals, signalCells_fields doc eth f 0 f.signals,
    fun _ s _ => wireFields_pairwise eth s, he, by rwa [he], by rwa [he]⟩

/-! ## The two ends of a frame -/

/-- One end sends a signal, and the other receives it with the bridge's fields added. -/
structure Mirrored (eth eth' : String) (s s' : Signal) : Prop where
  sends : s.fromKey.getD "" ≠ eth
  receives : s'.fromKey.getD "" = eth'
  fields : ∃ fs fs' t, s.fields = some fs ∧ s'.fields = some fs' ∧ (t = "u16" ∨ t = "u32") ∧
    fs'.entries.Perm (fs.entries ++ [("status", "RxStatus"), ("lost", t)])

/-- Both ends put the same fields on the wire, in the same order. -/
theorem Mirrored.wireFields_eq {eth eth' : String} {s s' : Signal} (h : Mirrored eth eth' s s') :
    wireFields eth s = wireFields eth' s' := by
  obtain ⟨fs, fs', t, hfs, hfs', -, hperm⟩ := h.fields
  refine eq_of_sorted ?_ (wireFields_pairwise eth s) (wireFields_pairwise eth' s')
  have hsent : layoutFields eth s = fs.entries := by
    rw [layoutFields, hfs]
    exact List.filter_eq_self.mpr fun p _ => by simp [h.sends]
  -- the name of the count is taken, so it is no field of the sender's
  have hfree : ∀ p ∈ fs.entries, p.1 ≠ "lost" := by
    intro p hp he
    have hnodup := (hperm.map Prod.fst).nodup_iff.mp fs'.nodup
    rw [List.map_append, List.nodup_append] at hnodup
    exact hnodup.2.2 _ (List.mem_map_of_mem hp) "lost" (by simp) he
  have hreceived : (layoutFields eth' s').Perm (fs.entries ++ [("status", "RxStatus")]) := by
    have hkeep : fs.entries.filter (fun p : String × String => !(s'.fromKey.getD "" = eth' && p.1 = "lost")) =
        fs.entries := List.filter_eq_self.mpr fun p hp => by simp [hfree p hp]
    rw [layoutFields, hfs']
    have hfilter := hperm.filter fun p => !(s'.fromKey.getD "" = eth' && p.1 = "lost")
    rw [List.filter_append, hkeep] at hfilter
    simpa [h.receives] using hfilter
  have hwire := ((sortedFields_perm (layoutFields_nodup eth' s')).trans hreceived).filter
    fun p => scalarWidth p.2 ≠ 0
  have hwire' := (sortedFields_perm (layoutFields_nodup eth s)).filter fun p => scalarWidth p.2 ≠ 0
  refine hwire'.trans (hwire.trans ?_).symm
  rw [hsent, List.filter_append]
  simp [scalarWidth]

theorem fieldCells_filter (f : Frame) (sig : String) (off : ℕ) (l : List (String × String)) :
    fieldCells f sig off (l.filter fun (_, t) => scalarWidth t ≠ 0) = fieldCells f sig off l := by
  induction l generalizing off with
  | nil => rfl
  | cons p rest ih =>
    obtain ⟨n, t⟩ := p
    by_cases hw : scalarWidth t = 0
    · rw [List.filter_cons_of_neg (by simp [hw]), ih, fieldCells]
      simp [hw]
    · rw [List.filter_cons_of_pos (by simp [hw]), fieldCells, fieldCells]
      rw [if_neg hw, if_neg hw]
      exact congrArg (List.cons _) (ih _)

/-- The two ends of a frame derive one layout. -/
theorem frameCells_mirrored {doc doc' : Doc} {eth eth' : String} {f f' : Frame} (hname : f.name = f'.name)
    (hid : f.id = f'.id) (hsignals : f.signals = f'.signals)
    (h : ∀ name ∈ f.signals, ∃ s s', doc.signal name = some s ∧ doc'.signal name = some s' ∧
      Mirrored eth eth' s s') : frameCells doc eth f = frameCells doc' eth' f' := by
  have hcells : ∀ sig l off, fieldCells f sig off l = fieldCells f' sig off l := by
    intro sig l
    induction l with
    | nil => exact fun _ => rfl
    | cons p rest ih =>
      intro off
      rw [fieldCells, fieldCells, ih, ih, hname, hid]
  unfold frameCells
  rw [← hsignals]
  generalize (0 : ℕ) = off
  generalize f.signals = names at h
  induction names generalizing off with
  | nil => rfl
  | cons name rest ih =>
    obtain ⟨s, s', hs, hs', hm⟩ := h name List.mem_cons_self
    rw [signalCells, signalCells, hs, hs']
    dsimp only
    have hone : fieldCells f name off (sortedFields (layoutFields eth s)) =
        fieldCells f' name off (sortedFields (layoutFields eth' s')) := by
      rw [← fieldCells_filter f, ← fieldCells_filter f', hcells]
      exact congrArg _ hm.wireFields_eq
    rw [hone, ih _ (fun n hn => h n (List.mem_cons_of_mem _ hn))]

/-- The payload of an accepted document is the one that was checked, cell by cell, exactly where the check
and the layout leave out the same fields; and the two ends of a frame derive one layout. -/
theorem eth_layout_checked (doc : Doc) (others : List Issue) :
    (validateSomeip doc others = [] → ethBusOf doc ≠ "" →
      ethLayouts doc = (doc.frames.filter (·.bus = ethBusOf doc)).flatMap (frameCells doc (ethBusOf doc)) ∧
      ((∀ f ∈ doc.frames, f.bus = ethBusOf doc → Laid doc (ethBusOf doc) f) ↔
        ∀ f ∈ doc.frames, f.bus = ethBusOf doc → ∀ name ∈ f.signals, ∀ s, doc.signal name = some s →
          Counted doc (ethBusOf doc) name s)) ∧
    ∀ (doc' : Doc) (f f' : Frame), f.name = f'.name → f.id = f'.id → f.signals = f'.signals →
      (∀ name ∈ f.signals, ∃ s s', doc.signal name = some s ∧ doc'.signal name = some s' ∧
        Mirrored (ethBusOf doc) (ethBusOf doc') s s') →
      frameCells doc (ethBusOf doc) f = frameCells doc' (ethBusOf doc') f' := by
  refine ⟨fun h heth => ?_, fun doc' f f' hname hid hsignals hm =>
    frameCells_mirrored hname hid hsignals hm⟩
  have hclean := validateSomeip_clean h
  refine ⟨if_neg heth, ?_⟩
  refine forall₃_congr fun f hf hbus => ?_
  obtain ⟨seen, hframe⟩ := framesIssues_clean heth hbus hclean hf
  exact laid_iff heth hframe

/-! ## A count of one byte -/

/-- A received signal whose count is of the given type, in a frame with a trailer behind `size` bytes. -/
def countDoc (lost : String) (size : Int) : Doc :=
  { buses := [{ name := "net", kind := "eth" }]
    partitions := [{ name := "App", threads := ["main"] }]
    fbs := [{ thread := "main", handlers := [{ reads := ["Speed"] }] }]
    signals := [{ name := "Speed", fromKey := some "net", toKey := some "App",
                  fields := if h : (["kmh", "lost", "status"] : List String).Nodup then
                      some { entries := [("kmh", "u16"), ("lost", lost), ("status", "RxStatus")], nodup := h }
                    else none }]
    frames := [{ name := "SpeedEvent", bus := "net", id := 0x8001, signals := ["Speed"],
                 e2e := some { counterPos := size, crcPos := size + 1, dataId := some 7 } }] }

/-- The count is sized as a field of the wire, which it is not: byte 2 belongs to nothing, and the trailer
lies behind it. -/
theorem byte_count_sized : validateSomeip (countDoc "u8" 3) [] = [] ∧
    ∃ f ∈ (countDoc "u8" 3).frames, f.bus = ethBusOf (countDoc "u8" 3) ∧
      ¬ Laid (countDoc "u8" 3) (ethBusOf (countDoc "u8" 3)) f := by
  have hrun : validateSomeip (countDoc "u8" 3) [] = [] ∧
      ∀ f ∈ (countDoc "u8" 3).frames, f.bus = ethBusOf (countDoc "u8" 3) ∧
        totalWidth (frameCells (countDoc "u8" 3) (ethBusOf (countDoc "u8" 3)) f) = 2 ∧
        payloadSize (countDoc "u8" 3) (ethBusOf (countDoc "u8" 3)) f = 3 := by decide +kernel
  refine ⟨hrun.1, _, List.mem_singleton_self _, (hrun.2 _ (List.mem_singleton_self _)).1, fun h => ?_⟩
  obtain ⟨-, htotal, hsize⟩ := hrun.2 _ (List.mem_singleton_self _)
  have := h.total
  omega

/-- With a count of two bytes the document is laid out as it was checked. -/
theorem eth_layout_checked_count : validateSomeip (countDoc "u16" 2) [] = [] ∧
    ∃ f ∈ (countDoc "u16" 2).frames, f.bus = ethBusOf (countDoc "u16" 2) ∧
      Laid (countDoc "u16" 2) (ethBusOf (countDoc "u16" 2)) f := by
  have hrun : validateSomeip (countDoc "u16" 2) [] = [] ∧ ethBusOf (countDoc "u16" 2) ≠ "" ∧
      ∀ f ∈ (countDoc "u16" 2).frames, f.bus = ethBusOf (countDoc "u16" 2) := by
    decide +kernel
  obtain ⟨haccepted, heth, hbus⟩ := hrun
  have hmem := List.mem_singleton_self ((countDoc "u16" 2).frames.head (by decide))
  refine ⟨haccepted, _, hmem, hbus _ hmem, ?_⟩
  refine ((eth_layout_checked (countDoc "u16" 2) []).1 haccepted heth).2.mpr
    (fun f hf _ name hname s hs => ?_) _ hmem (hbus _ hmem)
  obtain rfl := List.mem_singleton.mp hf
  obtain rfl := List.mem_singleton.mp hname
  obtain rfl := Option.some.inj hs
  refine ⟨fun fs hfs _ t ht => ?_, fun hnone => absurd hnone (by decide)⟩
  obtain rfl := Option.some.inj hfs
  have htype : t = "u16" := by simpa using ht
  exact Or.inl htype

end BloblyEmb.Ecumodel
