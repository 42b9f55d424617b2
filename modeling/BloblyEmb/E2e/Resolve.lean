import Mathlib.Algebra.Order.Ring.Nat
import BloblyEmb.Candb.Dbc

/-!
# The layout of a protected frame

Where a frame carries its protection is declared in the CAN database, and a node's configuration may
repeat, complete or replace it (`tools/ecumodel/e2e.v`). Two nodes resolve one frame each for itself.
-/
namespace BloblyEmb.E2e

open Candb.Dbc (Text MsgBuilder SigBuilder Order)

/-- How the values of a table are read. -/
structure Toml (A : Type) where
  bool : A → Bool
  int : A → Int
  i64 : A → Int

/-- Where a frame is stamped, and the timeout that finds its sender lost. -/
structure FrameE2e where
  dataId : Int := 0
  crcPos : Int := 0
  counterPos : Int := 0
  timeoutMs : Int := 0
  badTimeout : Text := []
deriving DecidableEq

def decimal (n : Int) : Text := (toString n).toList

def quoted (t : Text) : Text := "\"".toList ++ t ++ "\"".toList

variable {A F : Type}

/-! ## What the database declares -/

/-- The byte of a field signal, from the first signal of the name. -/
def e2eByteOf (m : MsgBuilder F) (name : Text) (width msb : Int) : Except Text Int :=
  if name = [] then .error "is not declared".toList
  else
    match m.sigs.find? (·.name = name) with
    | none => .error (quoted name ++ " is not a signal of the frame".toList)
    | some s =>
      if s.isMultiplexor ∨ s.isMultiplexed then .error (quoted name ++ " is multiplexed".toList)
      else
        let bit := if s.byteOrder = .bigEndian then msb else 0
        if s.length ≠ width ∨ s.startBit.tmod 8 ≠ bit then
          .error (quoted name ++ " must be ".toList ++ decimal width ++ " bits from bit 0 of a byte".toList)
        else .ok (s.startBit.tdiv 8)

def dbcE2e (m : MsgBuilder F) : Except Text (FrameE2e × Bool) :=
  let d := m.e2e
  let what := "frame ".toList ++ quoted m.name ++ ": the DBC's E2E declaration".toList
  if d.declared = false then .ok ({}, false)
  else if d.profile ≠ "autosar_p01".toList then
    .error (what ++ " names profile ".toList ++ quoted d.profile ++
      " — only P01 (AUTOSAR E2E Profile 1) is implemented".toList)
  else if d.badDataId ≠ [] then
    .error (what ++ " has E2EDataId ".toList ++ quoted d.badDataId ++ ", which is not a Data ID".toList)
  else if d.hasDataId = false ∨ 0xFFFF < d.dataId then
    .error (what ++ " needs an E2EDataId in 0..0xFFFF".toList)
  else
    match e2eByteOf m d.crc 8 7 with
    | .error e => .error (what ++ ": E2ECrcSignal ".toList ++ e)
    | .ok crc =>
      match e2eByteOf m d.counter 4 3 with
      | .error e => .error (what ++ ": E2ECounterSignal ".toList ++ e)
      | .ok ctr =>
        if crc = ctr then
          .error (what ++ " puts the CRC and the counter in one byte (".toList ++ decimal crc ++ ")".toList)
        else
          .ok ({ dataId := d.dataId.toNat, crcPos := crc, counterPos := ctr,
                 timeoutMs := d.timeoutMs.toNat, badTimeout := d.badTimeout }, true)

/-! ## What a node resolves -/

def frameE2eFields : List String := ["data_id", "crc_pos", "counter_pos"]

/-- A field of the table, or the value of the database, which binds the table where it is trusted. -/
def fieldOf (tv : Toml A) (frame : Text) (em : String → Option A) (trusted : Bool) (k : String)
    (v : Int) : Except Text Int :=
  match em k with
  | none => .ok v
  | some x =>
    let n := tv.int x
    if trusted ∧ n ≠ v then
      .error ("frame ".toList ++ quoted frame ++ ": e2e.".toList ++ k.toList ++ " = ".toList ++ decimal n ++
        " contradicts the DBC (".toList ++ decimal v ++
        ") — drop it, or set deviates_from_dbc = true if the difference is deliberate".toList)
    else .ok n

def deviates (tv : Toml A) (em : String → Option A) : Bool :=
  match em "deviates_from_dbc" with
  | some x => tv.bool x
  | none => false

/-- The timeout, and a malformed one that nothing replaced. -/
def timeoutOf (tv : Toml A) (frame : Text) (em : String → Option A) (dbcTimeout : Int)
    (dbcBadTimeout : Text) : Except Text (Int × Text) :=
  match em "timeout_ms" with
  | none => .ok (dbcTimeout, dbcBadTimeout)
  | some x =>
    let n := tv.i64 x
    if deviates tv em = false ∧ 0 < dbcTimeout ∧ n ≠ dbcTimeout then
      .error ("frame ".toList ++ quoted frame ++ ": e2e.timeout_ms = ".toList ++ decimal n ++
        " contradicts the DBC's E2ETimeout (".toList ++ decimal dbcTimeout ++
        ") — drop it, or set deviates_from_dbc = true if the difference is deliberate".toList)
    else .ok (n, [])

/-- The declaration of a message, and its error where it cannot be stamped. -/
def declaration (m : Option (MsgBuilder F)) : FrameE2e × Text :=
  match m with
  | none => ({}, [])
  | some msg =>
    match dbcE2e msg with
    | .ok (dbc, _) => (dbc, [])
    | .error e => ({}, e)

def resolveFrameE2e (tv : Toml A) (frame : Text) (hasToml : Bool) (em : String → Option A)
    (m : Option (MsgBuilder F)) : Except Text (FrameE2e × Bool) :=
  let declared := match m with | some msg => msg.e2e.declared | none => false
  let dbcTimeout : Int := match m with | some msg => msg.e2e.timeoutMs.toNat | none => 0
  let dbcBadTimeout := match m with | some msg => msg.e2e.badTimeout | none => []
  let (dbc, dbcErr) := declaration m
  if hasToml = false then (if dbcErr ≠ [] then .error dbcErr else .ok (dbc, declared))
  else if deviates tv em ∧ declared = false ∧ dbcTimeout = 0 then
    .error ("frame ".toList ++ quoted frame ++
      ": e2e says deviates_from_dbc, but the DBC declares no E2E for it".toList)
  else
    let complete := frameE2eFields.all fun k => (em k).isSome
    if dbcErr ≠ [] ∧ ¬ (deviates tv em ∧ complete) then
      .error (dbcErr ++ " — or give the frame a complete e2e with deviates_from_dbc = true".toList)
    else if declared = false ∧ complete = false then
      .error ("frame ".toList ++ quoted frame ++ ": e2e has no ".toList ++
        (", ".toList).intercalate ((frameE2eFields.filter fun k => (em k).isNone).map String.toList) ++
        ", and the DBC declares no E2E to take it from".toList)
    else
      let trusted := declared && decide (dbcErr = []) && !deviates tv em
      match fieldOf tv frame em trusted "data_id" dbc.dataId with
      | .error e => .error e
      | .ok dataId =>
        match fieldOf tv frame em trusted "crc_pos" dbc.crcPos with
        | .error e => .error e
        | .ok crcPos =>
          match fieldOf tv frame em trusted "counter_pos" dbc.counterPos with
          | .error e => .error e
          | .ok counterPos =>
            match timeoutOf tv frame em dbcTimeout dbcBadTimeout with
            | .error e => .error e
            | .ok (timeoutMs, badTimeout) =>
              .ok ({ dataId, crcPos, counterPos, timeoutMs, badTimeout }, true)

/-! ## The bits of a signal -/

/-- A sum of `int`s. -/
def wrap (x : Int) : Int := Int.bmod x (2 ^ 32)

def walks (g : Int) : ℕ → Int → Bool
  | 0, _ => false
  | n + 1, pos => if pos = g then true else walks g n (if pos.tmod 8 = 0 then wrap (pos + 15) else pos - 1)

/-- The bits of a signal, by the walk of the database. -/
def owns (s : SigBuilder F) (g : Int) : Bool :=
  if s.byteOrder = .littleEndian then decide (s.startBit ≤ g ∧ g < wrap (s.startBit + s.length))
  else walks g s.length.toNat s.startBit

/-- The end of a little-endian signal is an `int`; in the other order the walk meets no such end. -/
def Ends (s : SigBuilder F) : Prop :=
  s.byteOrder = .littleEndian → -2 ^ 31 ≤ s.startBit ∧ s.startBit + s.length < 2 ^ 31

theorem wrap_of_range {x : Int} (h₁ : -2 ^ 31 ≤ x) (h₂ : x < 2 ^ 31) : wrap x = x := by
  have hword : (2 : ℕ) ^ 32 = 4294967296 := rfl
  rw [wrap, hword, Int.bmod_def]
  split <;> omega

/-- A walk that stays above the bottom of its byte is a run of bits downwards. -/
theorem walks_iff (g : Int) (n : ℕ) (pos : Int) (h : (n : Int) ≤ pos.tmod 8 + 1) (hpos : 0 ≤ pos) :
    walks g n pos = true ↔ pos - n < g ∧ g ≤ pos := by
  induction n generalizing pos with
  | zero =>
    simp only [walks, Bool.false_eq_true, false_iff]
    omega
  | succ n ih =>
    rw [walks]
    by_cases hg : pos = g
    · simp only [hg, if_true, true_iff]
      omega
    · rw [if_neg hg]
      by_cases hbottom : pos.tmod 8 = 0
      · have hn : n = 0 := by omega
        subst hn
        simp only [walks, Bool.false_eq_true, false_iff]
        omega
      · have hmod : (pos - 1).tmod 8 = pos.tmod 8 - 1 := by
          rw [Int.tmod_eq_emod_of_nonneg hpos] at hbottom ⊢
          rw [Int.tmod_eq_emod_of_nonneg (by omega)]
          omega
        have hpos' : 0 ≤ pos - 1 := by
          rcases Int.lt_or_le 0 pos with hp | hp
          · omega
          · have : pos = 0 := by omega
            subst this
            simp at hbottom
        rw [if_neg hbottom, ih _ (by omega) hpos']
        omega

/-- The byte of a field signal is where its bits are, from the lowest on. -/
theorem e2eByteOf_owns {m : MsgBuilder F} {name : Text} {width : ℕ} {k : Int} (hw : 2 ≤ width)
    (hle : width ≤ 8) (h : e2eByteOf m name width (width - 1) = .ok k) :
    ∃ s, m.sigs.find? (·.name = name) = some s ∧
      (Ends s → ∀ g, owns s g = true ↔ 8 * k ≤ g ∧ g < 8 * k + width) := by
  unfold e2eByteOf at h
  split at h
  case isTrue => cases h
  split at h
  · cases h
  · rename_i s hs
    split at h
    case isTrue => cases h
    dsimp only at h
    generalize hb : (if s.byteOrder = .bigEndian then (width : Int) - 1 else 0) = bit at h
    split at h
    case isTrue => cases h
    rename_i hbits
    rw [not_or, not_not, not_not] at hbits
    obtain ⟨hlen, hbit⟩ := hbits
    obtain rfl := Except.ok.inj h
    refine ⟨s, hs, fun hends g => ?_⟩
    have hdiv := Int.tmod_add_mul_tdiv s.startBit 8
    cases horder : s.byteOrder with
    | littleEndian =>
      obtain ⟨hlow, hhigh⟩ := hends horder
      rw [if_neg (by simp [horder])] at hb
      rw [owns, if_pos horder, wrap_of_range (by omega) hhigh, decide_eq_true_eq, hlen]
      omega
    | bigEndian =>
      rw [if_pos horder] at hb
      have hpos : 0 ≤ s.startBit := by
        by_contra hneg
        have hmod := Int.tmod_nonneg 8 (show 0 ≤ -s.startBit by omega)
        rw [Int.neg_tmod] at hmod
        omega
      rw [owns, if_neg (by simp [horder]), walks_iff _ _ _ (by omega) hpos]
      omega

/-! ## What two nodes resolve -/

/-- A layout is what the database declares for a message, in full. -/
structure Stamps (m : MsgBuilder F) (l : FrameE2e) : Prop where
  data_id : l.dataId = m.e2e.dataId.toNat ∧ m.e2e.hasDataId = true ∧ m.e2e.dataId ≤ 0xFFFF
  crc : ∃ s, m.sigs.find? (·.name = m.e2e.crc) = some s ∧
    (Ends s → ∀ g, owns s g = true ↔ 8 * l.crcPos ≤ g ∧ g < 8 * l.crcPos + 8)
  counter : ∃ s, m.sigs.find? (·.name = m.e2e.counter) = some s ∧
    (Ends s → ∀ g, owns s g = true ↔ 8 * l.counterPos ≤ g ∧ g < 8 * l.counterPos + 4)
  apart : l.crcPos ≠ l.counterPos

/-- A declaration that is accepted is stamped as it says; without one there is nothing. -/
theorem dbcE2e_ok {m : MsgBuilder F} {l : FrameE2e} {b : Bool} (h : dbcE2e m = .ok (l, b)) :
    b = m.e2e.declared ∧ (b = false → l = {}) ∧
      (b = true → Stamps m l ∧ l.timeoutMs = m.e2e.timeoutMs.toNat) := by
  dsimp only [dbcE2e] at h
  split at h
  case isTrue hd =>
    cases h
    exact ⟨hd.symm, fun _ => rfl, by simp⟩
  rename_i hd
  split at h
  case isTrue => cases h
  split at h
  case isTrue => cases h
  split at h
  case isTrue => cases h
  rename_i hid
  split at h
  · cases h
  rename_i crc hcrc
  split at h
  · cases h
  rename_i ctr hctr
  split at h
  case isTrue => cases h
  rename_i hne
  cases h
  rw [not_or, Bool.not_eq_false, UInt32.not_lt] at hid
  refine ⟨by simpa using hd, by simp, fun _ => ⟨⟨⟨rfl, hid⟩, ?_, ?_, hne⟩, rfl⟩⟩
  · exact e2eByteOf_owns (show 2 ≤ 8 by decide) (by decide) hcrc
  · exact e2eByteOf_owns (show 2 ≤ 4 by decide) (by decide) hctr

theorem dbcE2e_error_ne_nil {m : MsgBuilder F} {e : Text} (h : dbcE2e m = .error e) : e ≠ [] := by
  have hframe : ¬ "frame ".toList = [] := by decide
  dsimp only [dbcE2e] at h
  repeat' split at h
  all_goals first
    | (obtain rfl := Except.error.inj h
       simp only [ne_eq, List.append_eq_nil_iff, hframe, false_and, not_false_eq_true])
    | cases h

theorem fieldOf_trusted {tv : Toml A} {frame : Text} {em : String → Option A} {k : String} {v n : Int}
    (h : fieldOf tv frame em true k v = .ok n) : n = v := by
  unfold fieldOf at h
  split at h
  · exact (Except.ok.inj h).symm
  · dsimp only at h
    split at h
    case isTrue => cases h
    rename_i hne
    obtain rfl := Except.ok.inj h
    exact not_not.mp fun hn => hne ⟨rfl, hn⟩

theorem timeoutOf_bound {tv : Toml A} {frame : Text} {em : String → Option A} {t n : Int}
    {bad bad' : Text} (hd : deviates tv em = false) (ht : 0 < t)
    (h : timeoutOf tv frame em t bad = .ok (n, bad')) : n = t := by
  unfold timeoutOf at h
  split at h
  · exact (Prod.ext_iff.mp (Except.ok.inj h)).1.symm
  · dsimp only at h
    split at h
    case isTrue => cases h
    rename_i hne
    obtain rfl := (Prod.ext_iff.mp (Except.ok.inj h)).1
    exact not_not.mp fun hn => hne ⟨hd, ht, hn⟩

/-- Without a table the result is the declaration, or its error. -/
theorem resolveFrameE2e_untabled (tv : Toml A) (frame : Text) (em : String → Option A)
    (m : MsgBuilder F) : resolveFrameE2e tv frame false em (some m) = dbcE2e m := by
  rcases h : dbcE2e m with e | ⟨l, b⟩
  · simp [resolveFrameE2e, declaration, h, dbcE2e_error_ne_nil h]
  · simp [resolveFrameE2e, declaration, h, (dbcE2e_ok h).1]

/-- A table that does not deviate leaves the layout as it is declared. -/
theorem resolveFrameE2e_declared {tv : Toml A} {frame : Text} {has : Bool} {em : String → Option A}
    {m : MsgBuilder F} (hdev : has = true → deviates tv em = false) (hdecl : m.e2e.declared = true)
    {l : FrameE2e} {b : Bool} (h : resolveFrameE2e tv frame has em (some m) = .ok (l, b)) :
    ∃ dbc, dbcE2e m = .ok (dbc, true) ∧ l.dataId = dbc.dataId ∧ l.crcPos = dbc.crcPos ∧
      l.counterPos = dbc.counterPos ∧ (m.e2e.timeoutMs ≠ 0 → l.timeoutMs = m.e2e.timeoutMs.toNat) := by
  cases has with
  | false =>
    rw [resolveFrameE2e_untabled] at h
    have hb := (dbcE2e_ok h).1
    rw [hdecl] at hb
    subst hb
    exact ⟨l, h, rfl, rfl, rfl, fun _ => ((dbcE2e_ok h).2.2 rfl).2⟩
  | true =>
    have hd := hdev rfl
    cases hdbc : dbcE2e m with
    | error e =>
      -- the declaration cannot be stamped, and the table does not replace it
      simp [resolveFrameE2e, declaration, hdbc, hd, dbcE2e_error_ne_nil hdbc] at h
    | ok r =>
      obtain ⟨dbc, b'⟩ := r
      have hb := (dbcE2e_ok hdbc).1
      rw [hdecl] at hb
      subst hb
      simp only [resolveFrameE2e, declaration, hdbc, hd, hdecl, Bool.true_eq_false, if_false,
        Bool.false_eq_true, false_and, ne_eq, not_true_eq_false, decide_true, Bool.and_self,
        Bool.not_false] at h
      split at h
      · cases h
      rename_i dataId h₁
      split at h
      · cases h
      rename_i crcPos h₂
      split at h
      · cases h
      rename_i counterPos h₃
      split at h
      · cases h
      rename_i timeoutMs badTimeout h₄
      cases h
      refine ⟨dbc, rfl, fieldOf_trusted h₁, fieldOf_trusted h₂, fieldOf_trusted h₃, fun ht => ?_⟩
      refine timeoutOf_bound hd ?_ h₄
      have : m.e2e.timeoutMs.toNat ≠ 0 := fun hz => ht (UInt32.toNat_inj.mp hz)
      omega

def fieldSignal (name : String) (start length : Int) : SigBuilder ℕ :=
  { name := name.toList, startBit := start, length := length, factor := 1, offset := 0, minimum := 0,
    maximum := 0, unit := [], receivers := [], isSigned := false, byteOrder := .littleEndian,
    isMultiplexor := false, isMultiplexed := false, multiplexorValue := 0 }

def protectedFrame (crcStart : Int) : MsgBuilder ℕ :=
  { name := "a".toList, id := 16, ext := false, dlc := 8, sender := "n".toList
    sigs := [fieldSignal "crc" crcStart 8, fieldSignal "ctr" 0 4]
    e2e := { counter := "ctr".toList, crc := "crc".toList, profile := "autosar_p01".toList, dataId := 7,
             hasDataId := true, timeoutMs := 100 } }

/-- The end of a signal in the last byte of an `int` is below its start, so that the walk meets none of
its bits; the layout has a byte for it all the same. -/
theorem last_byte_unowned :
    resolveFrameE2e (A := Unit) { bool := fun _ => false, int := fun _ => 0, i64 := fun _ => 0 } [] false
        (fun _ => none) (some (protectedFrame 2147483640)) =
      .ok ({ dataId := 7, crcPos := 268435455, counterPos := 0, timeoutMs := 100 }, true) ∧
    (protectedFrame 2147483640).sigs.find? (·.name = (protectedFrame 2147483640).e2e.crc) =
      some (fieldSignal "crc" 2147483640 8) ∧
    ∀ g, 8 * 268435455 ≤ g → g < 8 * 268435455 + 8 →
      owns (fieldSignal "crc" 2147483640 8) g = false := by
  refine ⟨by rfl, by rfl, fun g hlow _ => ?_⟩
  have hend : wrap ((fieldSignal "crc" 2147483640 8).startBit + (fieldSignal "crc" 2147483640 8).length) =
      -2147483648 := by decide
  rw [owns, if_pos (by rfl), hend, decide_eq_false_iff_not]
  omega

/-- The sender and the receiver of a frame resolve it alike: to the bytes of the declared signals, and
to the timeout that the database states. Without a table there is a whole layout, none, or an error. -/
theorem layouts_resolve_alike (tv : Toml A) (m : MsgBuilder F) :
    (∀ (frame frame' : Text) (has has' : Bool) (em em' : String → Option A) (l l' : FrameE2e)
      (b b' : Bool), (has = true → deviates tv em = false) → (has' = true → deviates tv em' = false) →
      resolveFrameE2e tv frame has em (some m) = .ok (l, b) →
      resolveFrameE2e tv frame' has' em' (some m) = .ok (l', b') → m.e2e.declared = true →
      l.dataId = l'.dataId ∧ l.crcPos = l'.crcPos ∧ l.counterPos = l'.counterPos ∧ Stamps m l ∧
      (m.e2e.timeoutMs ≠ 0 →
        l.timeoutMs = m.e2e.timeoutMs.toNat ∧ l'.timeoutMs = m.e2e.timeoutMs.toNat)) ∧
    ∀ (frame : Text) (em : String → Option A),
      resolveFrameE2e tv frame false em (some m) = dbcE2e m ∧
      ∀ l b, dbcE2e m = .ok (l, b) →
        b = m.e2e.declared ∧ (b = false → l = {}) ∧ (b = true → Stamps m l) := by
  refine ⟨?_, fun frame em => ⟨resolveFrameE2e_untabled tv frame em m, fun l b h => ?_⟩⟩
  · intro frame frame' has has' em em' l l' b b' hdev hdev' h h' hdecl
    obtain ⟨dbc, hdbc, h₁, h₂, h₃, ht⟩ := resolveFrameE2e_declared hdev hdecl h
    obtain ⟨dbc', hdbc', h₁', h₂', h₃', ht'⟩ := resolveFrameE2e_declared hdev' hdecl h'
    obtain rfl := (Prod.ext_iff.mp (Except.ok.inj (hdbc.symm.trans hdbc'))).1
    obtain ⟨stamps, -⟩ := (dbcE2e_ok hdbc).2.2 rfl
    refine ⟨h₁.trans h₁'.symm, h₂.trans h₂'.symm, h₃.trans h₃'.symm, ?_, fun hz => ⟨ht hz, ht' hz⟩⟩
    obtain ⟨hid, hcrc, hctr, hne⟩ := stamps
    exact ⟨⟨h₁.trans hid.1, hid.2⟩, by rwa [h₂], by rwa [h₃], by rwa [h₂, h₃]⟩
  · obtain ⟨hb, hnone, hsome⟩ := dbcE2e_ok h
    exact ⟨hb, hnone, fun ht => (hsome ht).1⟩

/-- The sender has no table, and the receiver's repeats one field. -/
theorem layouts_resolve_alike_repeated :
    ∃ l l' : FrameE2e, l.crcPos = l'.crcPos ∧ l.timeoutMs = 100 ∧ l'.timeoutMs = 100 ∧
      Stamps (protectedFrame 8) l := by
  let tv : Toml Int := { bool := fun _ => false, int := id, i64 := id }
  let em : String → Option Int := fun k => if k = "crc_pos" then some 1 else none
  let l : FrameE2e := { dataId := 7, crcPos := 1, counterPos := 0, timeoutMs := 100 }
  have hsend : resolveFrameE2e tv [] false em (some (protectedFrame 8)) = .ok (l, true) := by rfl
  have hrecv : resolveFrameE2e tv [] true em (some (protectedFrame 8)) = .ok (l, true) := by rfl
  obtain ⟨-, hcrc, -, hstamps, ht⟩ := (layouts_resolve_alike tv (protectedFrame 8)).1 [] [] false true em em
    l l true true (by simp) (fun _ => by rfl) hsend hrecv (by rfl)
  exact ⟨l, l, hcrc, (ht (by decide)).1, (ht (by decide)).2, hstamps⟩

end BloblyEmb.E2e
