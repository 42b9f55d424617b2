import Mathlib.Data.List.Basic
import Mathlib.Data.Nat.Notation
import Mathlib.Logic.Function.Basic
import Mathlib.Tactic.Common

/-!
# The text of a database

A database is read line by line: the first token of a line says what it declares (`tools/candb/dbc.v`).
A text is its bytes. A function has no result where it would cut or index out of range; that is not the
same as an error that it returns.
-/
namespace BloblyEmb.Candb.Dbc

abbrev Text := List Char

/-- No result, an error, or what was read. -/
abbrev Run (α : Type) := Option (Except Text α)

def ok {α : Type} (a : α) : Run α := some (.ok a)

def error {α : Type} (msg : String) (line : Text) : Run α := some (.error (msg.toList ++ line))

/-- Goes on with what was read. -/
def Run.andThen {α β : Type} (r : Run α) (f : α → Run β) : Run β :=
  match r with
  | none => none
  | some (.error e) => some (.error e)
  | some (.ok a) => f a

/-! ## Strings -/

def isSpace (c : Char) : Bool :=
  c = ' ' || c = '\n' || c = '\t' || c = '\x0b' || c = '\x0c' || c = '\r'

def trimLeft (p : Char → Bool) (t : Text) : Text := t.dropWhile p

def trimRight (p : Char → Bool) (t : Text) : Text := (t.reverse.dropWhile p).reverse

def trim (p : Char → Bool) (t : Text) : Text := trimRight p (trimLeft p t)

def trimSpace (t : Text) : Text := trim isSpace t

def startsWith (t : Text) (s : String) : Bool := s.toList.isPrefixOf t

def endsWith (t : Text) (s : String) : Bool := s.toList.isSuffixOf t

/-- `t[a..b]`. -/
def slice (t : Text) (a b : ℕ) : Option Text :=
  if a ≤ b ∧ b ≤ t.length then some ((t.take b).drop a) else none

/-- Where `c` is, at or after `start`. -/
def indexByteFrom (t : Text) (c : Char) (start : ℕ) : Option ℕ :=
  ((t.drop start).findIdx? (· = c)).map (start + ·)

/-- Where `sub` is. -/
def indexStr (t sub : Text) : Option ℕ :=
  if sub = [] ∨ t.length < sub.length then none
  else (List.range (t.length - sub.length + 1)).find? fun i => (t.drop i).take sub.length = sub

/-- The parts between the characters of `p`; the second argument is the part so far, reversed. -/
def splitAux (p : Char → Bool) : Text → Text → List Text
  | [], acc => [acc.reverse]
  | c :: cs, acc => if p c then acc.reverse :: splitAux p cs [] else splitAux p cs (c :: acc)

def split (p : Char → Bool) (t : Text) : List Text := splitAux p t []

/-- The words between blanks. -/
def fields (t : Text) : List Text :=
  (split (fun c => c = ' ' || c = '\t' || c = '\n') t).filter (· ≠ [])

/-- The lines, which end with a line feed, a carriage return or both. -/
def linesAux : Text → Text → List Text
  | [], acc => if acc = [] then [] else [acc.reverse]
  | '\r' :: '\n' :: cs, acc => acc.reverse :: linesAux cs []
  | c :: cs, acc => if c = '\n' ∨ c = '\r' then acc.reverse :: linesAux cs [] else linesAux cs (c :: acc)

def splitIntoLines (t : Text) : List Text := linesAux t []

def join (l : List Text) : Text := List.intercalate [' '] l

/-- How strings are read as numbers. -/
structure Conv (F : Type) where
  int : Text → Int
  u64 : Text → UInt64
  i64 : Text → Int
  f64 : Text → F
  zero : F

/-! ## What is built -/

inductive Order where
  | littleEndian
  | bigEndian
deriving DecidableEq

structure SigBuilder (F : Type) where
  name : Text
  startBit : Int
  length : Int
  factor : F
  offset : F
  minimum : F
  maximum : F
  unit : Text
  desc : Text := []
  receivers : List Text
  values : UInt64 → Option Text := fun _ => none
  isSigned : Bool
  byteOrder : Order
  isMultiplexor : Bool
  isMultiplexed : Bool
  multiplexorValue : Int
  startValue : Text := []

structure E2eDecl where
  counter : Text := []
  crc : Text := []
  profile : Text := []
  dataId : UInt32 := 0
  hasDataId : Bool := false
  badDataId : Text := []
  timeoutMs : UInt32 := 0
  hasTimeout : Bool := false
  badTimeout : Text := []

def E2eDecl.declared (d : E2eDecl) : Bool :=
  d.counter ≠ [] || d.crc ≠ [] || d.profile ≠ [] || d.hasDataId || d.badDataId ≠ []

structure MsgBuilder (F : Type) where
  name : Text
  id : UInt32
  ext : Bool
  dlc : Int
  sender : Text
  cycleMs : Int := 0
  sigs : List (SigBuilder F) := []
  e2e : E2eDecl := {}

/-- What is read, with the fields that the builders have. -/
structure Database (F : Type) where
  messages : List (MsgBuilder F)
  nodes : List Text

def canEffFlag : UInt32 := 0x80000000
def canEffMask : UInt32 := 0x1FFFFFFF

def idkey (id : UInt32) (ext : Bool) : UInt64 := id.toUInt64 ||| (if ext then (1 : UInt64) <<< (32 : UInt64) else 0)

/-- The identifier that a number of the text is, and whether it is an extended one. -/
def splitId (raw : UInt32) : UInt32 × Bool :=
  let ext := decide (raw &&& canEffFlag ≠ 0)
  (if ext then raw &&& canEffMask else raw, ext)

structure State (F : Type) where
  msgs : List (MsgBuilder F) := []
  byId : UInt64 → Option ℕ := fun _ => none
  /-- The message that signals go to. -/
  cur : Option ℕ := none
  nodes : List Text := []
  e2eDefaults : List Text := []

section Parse

variable {F : Type} (cv : Conv F)

/-! ## Messages and signals -/

def parseBo (line : Text) : Run (MsgBuilder F) :=
  let f := fields line
  if f.length < 4 then error "malformed BO_: " line
  else
    let (id, ext) := splitId (cv.u64 (f.getD 1 [])).toUInt32
    ok
      { name := trimRight (· = ':') (f.getD 2 [])
        id := id
        ext := ext
        dlc := cv.int (f.getD 3 [])
        sender := f.getD 4 [] }

/-- The multiplexing mark: whether the signal is a switch, whether one selects it, and by what. -/
def parseMarker (hf : List Text) : Option (Bool × Bool × Int) :=
  match hf[2]? with
  | none => some (false, false, 0)
  | some marker =>
    if marker = ['M'] then some (true, false, 0)
    else if startsWith marker "m" then do
      let t ← slice marker 1 marker.length
      some (endsWith marker "M", true, cv.int (trimRight (· = 'M') t))
    else some (false, false, 0)

/-- What stands before the unit, the unit, and what stands behind it. -/
def parseUnit (line body : Text) : Run (Text × Text × Text) :=
  match indexByteFrom body '"' 0 with
  | none => error "SG_ missing unit quotes: " line
  | some q1 =>
    match indexByteFrom body '"' (q1 + 1) with
    | none => error "SG_ unterminated unit: " line
    | some q2 =>
      (slice body (q1 + 1) q2).bind fun unit =>
        (slice body 0 q1).bind fun pre =>
          (slice body (q2 + 1) body.length).bind fun post => ok (trimSpace pre, unit, post)

/-- The start bit, the length, and what stands behind the `@`. -/
def parseBits (line bitspec : Text) : Run (Int × Int × Text) :=
  match indexByteFrom bitspec '|' 0, indexByteFrom bitspec '@' 0 with
  | some bar, some at' =>
    (slice bitspec 0 bar).bind fun start =>
      (slice bitspec (bar + 1) at').bind fun length =>
        (slice bitspec (at' + 1) bitspec.length).bind fun orderSign =>
          ok (cv.int start, cv.int length, orderSign)
  | _, _ => error "SG_ bad bit spec: " line

def parseReceivers (post : Text) : List Text :=
  ((split (fun c => c = ',' || c = ' ' || c = '\t') post).map trimSpace).filter (· ≠ [])

/-- The signal, from the parts of its line. -/
def buildSg (name : Text) (mux : Bool × Bool × Int) (unit post : Text) (pf : List Text)
    (start length : Int) (order sign : Char) : SigBuilder F :=
  let fo := split (· = ',') (trim (fun c => c = '(' || c = ')') (pf.getD 1 []))
  let mm := split (· = '|') (trim (fun c => c = '[' || c = ']') (pf.getD 2 []))
  let ranged := decide (2 < pf.length ∧ 1 < mm.length)
  { name := name
    startBit := start
    length := length
    factor := cv.f64 (fo.getD 0 [])
    offset := if 1 < fo.length then cv.f64 (fo.getD 1 []) else cv.zero
    minimum := if ranged then cv.f64 (mm.getD 0 []) else cv.zero
    maximum := if ranged then cv.f64 (mm.getD 1 []) else cv.zero
    unit := unit
    receivers := parseReceivers post
    isSigned := decide (sign = '-')
    byteOrder := if order = '1' then .littleEndian else .bigEndian
    isMultiplexor := mux.1
    isMultiplexed := mux.2.1
    multiplexorValue := mux.2.2 }

def parseSg (line : Text) : Run (SigBuilder F) :=
  match indexByteFrom line ':' 0 with
  | none => error "SG_ without \":\" : " line
  | some colon =>
    (slice line 0 colon).bind fun head =>
      (slice line (colon + 1) line.length).bind fun rest =>
        let hf := fields (trimSpace head)
        if hf.length < 2 then error "SG_ missing name: " line
        else
          (parseMarker cv hf).bind fun mux =>
            (parseUnit line (trimSpace rest)).andThen fun (pre, unit, post) =>
              let pf := fields pre
              if pf.length < 2 then error "SG_ malformed layout: " line
              else
                (parseBits cv line (pf.getD 0 [])).andThen fun (start, length, orderSign) =>
                  match orderSign with
                  | order :: sign :: _ =>
                    ok (buildSg cv (hf.getD 1 []) mux unit post pf start length order sign)
                  | _ => error "SG_ bad order/sign: " line

/-! ## Attributes, tables and comments -/

def signalIndex (mb : MsgBuilder F) (name : Text) : Option ℕ := mb.sigs.findIdx? (·.name = name)

/-- Changes a message of the list. -/
def State.message (st : State F) (idx : ℕ) (f : MsgBuilder F → MsgBuilder F) : State F :=
  { st with msgs := st.msgs.modify idx f }

/-- Changes a signal by its name. -/
def State.signal (st : State F) (key : UInt64) (name : Text) (f : SigBuilder F → SigBuilder F) :
    State F :=
  match st.byId key with
  | none => st
  | some mi =>
    match (st.msgs[mi]?).bind fun m => signalIndex m name with
    | none => st
    | some si => st.message mi fun m => { m with sigs := m.sigs.modify si f }

/-- The key of the message that a number names. -/
def keyOf (t : Text) : UInt64 :=
  let (id, ext) := splitId (cv.u64 t).toUInt32
  idkey id ext

/-- As in a value table and in a comment: the mask is taken off any number. -/
def maskedKey (t : Text) : UInt64 :=
  let raw := (cv.u64 t).toUInt32
  idkey (raw &&& canEffMask) (decide (raw &&& canEffFlag ≠ 0))

def applyCycleTime (st : State F) (line : Text) : State F :=
  let f := fields (line.filter (· ≠ ';'))
  if f.length < 5 ∨ f.getD 2 [] ≠ "BO_".toList then st
  else
    match st.byId (keyOf cv (f.getD 3 [])) with
    | none => st
    | some idx => st.message idx fun m => { m with cycleMs := cv.int (f.getD 4 []) }

def applyStartValue (st : State F) (line : Text) : State F :=
  let f := fields (trimRight (· = ';') line)
  if f.length < 5 ∨ f.getD 2 [] ≠ "SG_".toList then st
  else
    st.signal (keyOf cv (f.getD 3 [])) (f.getD 4 []) fun s =>
      { s with startValue := if 5 < f.length then f.getD 5 [] else "(none)".toList }

/-- Digits that fit a word; zeros in front are allowed. -/
def e2eU32 (raw : Text) : Option UInt32 :=
  if raw = [] ∨ raw.all Char.isDigit = false then none
  else
    let digits := trimLeft (· = '0') raw
    if 10 < digits.length ∨ 0xFFFFFFFF < cv.u64 digits then none
    else some (cv.u64 digits).toUInt32

def profileFromDbc (v : Text) : Text :=
  if v = "P01".toList ∨ v = "PROFILE_01".toList ∨ v = "autosar_p01".toList then "autosar_p01".toList
  else v

def unquoted (raw : Text) : Option Text :=
  if 2 ≤ raw.length ∧ startsWith raw "\"" ∧ endsWith raw "\"" then slice raw 1 (raw.length - 1)
  else some []

def setE2eField (d : E2eDecl) (quotedName raw : Text) (overwrite : Bool) : Option E2eDecl := do
  let str ← unquoted raw
  let said := if raw = [] then "(empty)".toList else raw
  if quotedName = "\"E2ECounterSignal\"".toList then
    some (if overwrite ∨ d.counter = [] then { d with counter := str } else d)
  else if quotedName = "\"E2ECrcSignal\"".toList then
    some (if overwrite ∨ d.crc = [] then { d with crc := str } else d)
  else if quotedName = "\"E2EProfile\"".toList then
    some (if overwrite ∨ d.profile = [] then { d with profile := profileFromDbc str } else d)
  else if quotedName = "\"E2ETimeout\"".toList then
    if overwrite = false ∧ (d.hasTimeout = true ∨ d.badTimeout ≠ []) then some d
    else
      match e2eU32 cv raw with
      | some v =>
        some (if overwrite ∨ 0 < v then { d with timeoutMs := v, hasTimeout := true, badTimeout := [] }
          else d)
      | none => some { d with badTimeout := said, hasTimeout := false }
  else if quotedName = "\"E2EDataId\"".toList then
    if overwrite = false then some d
    else
      match e2eU32 cv raw with
      | some v => some { d with dataId := v, hasDataId := true, badDataId := [] }
      | none => some { d with badDataId := said, hasDataId := false }
  else some d

/-- Changes the declaration of each message by a function that may have no result. -/
def State.declare (st : State F) (idx : ℕ) (g : E2eDecl → Option E2eDecl) : Option (State F) :=
  match st.msgs[idx]? with
  | none => some st
  | some m => (g m.e2e).map fun d => st.message idx fun m => { m with e2e := d }

def applyE2eAttr (st : State F) (line : Text) : Option (State F) :=
  let f := fields (trimRight (· = ';') line)
  if f.length < 4 ∨ f.getD 2 [] ≠ "BO_".toList then some st
  else
    match st.byId (keyOf cv (f.getD 3 [])) with
    | none => some st
    | some idx =>
      st.declare idx fun d =>
        setE2eField cv d (f.getD 1 []) (if 4 < f.length then trimSpace (join (f.drop 4)) else []) true

def isNum (c : Char) : Bool := c = '-' || c.isDigit

theorem lt_of_indexByteFrom {t : Text} {c : Char} {start i : ℕ}
    (h : indexByteFrom t c start = some i) : start ≤ i ∧ i < t.length := by
  rw [indexByteFrom, Option.map_eq_some_iff] at h
  obtain ⟨k, hk, rfl⟩ := h
  obtain ⟨hlt, -⟩ := List.findIdx?_eq_some_iff_getElem.mp hk
  rw [List.length_drop] at hlt
  omega

/-- The pairs of a table: numbers and quoted labels. Each round takes a label off. -/
def scanValues (t : Text) (vals : UInt64 → Option Text) : Option (UInt64 → Option Text) :=
  if t = [] then some vals
  else
    let t1 := t.dropWhile (· = ' ')
    let num := t1.takeWhile isNum
    let t2 := t1.dropWhile isNum
    match indexByteFrom t2 '"' 0 with
    | none => some vals
    | some q =>
      match _hqe : indexByteFrom t2 '"' (q + 1) with
      | none => some vals
      | some qe =>
        match slice t2 (q + 1) qe with
        | none => none
        | some label =>
          scanValues (t2.drop (qe + 1))
            (if num ≠ [] then Function.update vals (UInt64.ofInt (cv.i64 num)) (some label) else vals)
termination_by t.length
decreasing_by
  have hlt : qe < t2.length := (lt_of_indexByteFrom _hqe).2
  have hle : t2.length ≤ t.length :=
    ((List.dropWhile_suffix _).trans (List.dropWhile_suffix _)).length_le
  change (t2.drop (qe + 1)).length < t.length
  rw [List.length_drop]
  omega

def dropString (t : Text) (s : String) : Text := if startsWith t s then t.drop s.length else t

def applyVal (st : State F) (line : Text) : Option (State F) :=
  let body := trimSpace (trimRight (· = ';') (trimSpace (dropString line "VAL_")))
  let f := fields body
  if f.length < 2 then some st
  else
    let sigName := f.getD 1 []
    match st.byId (maskedKey cv (f.getD 0 [])) with
    | none => some st
    | some mi =>
      match (st.msgs[mi]?).bind fun m => signalIndex m sigName with
      | none => some st
      | some _ =>
        match indexStr body sigName with
        | none => some st
        | some nameAt => do
          let rest ← slice body (nameAt + sigName.length) body.length
          let vals ← scanValues cv rest fun _ => none
          some (st.signal (maskedKey cv (f.getD 0 [])) sigName fun s => { s with values := vals })

def applyCmSg (st : State F) (line : Text) : Option (State F) :=
  let f := fields (trimSpace (dropString line "CM_ SG_"))
  if f.length < 2 then some st
  else
    match indexByteFrom line '"' 0 with
    | none => some st
    | some q1 =>
      match indexByteFrom line '"' (q1 + 1) with
      | none => some st
      | some q2 => do
        let comment ← slice line (q1 + 1) q2
        some (st.signal (maskedKey cv (f.getD 0 [])) (f.getD 1 []) fun s =>
          { s with desc := comment })

/-! ## The lines -/

/-- One line, trimmed. -/
def parseLine (st : State F) (line : Text) : Run (State F) :=
  if startsWith line "BO_ " then
    (parseBo cv line).andThen fun mb =>
      ok
        { st with
          msgs := st.msgs ++ [mb]
          byId := Function.update st.byId (idkey mb.id mb.ext) (some st.msgs.length)
          cur := some st.msgs.length }
  else if startsWith line "SG_ " then
    match st.cur with
    | none => error "SG_ line with no preceding BO_: " line
    | some cur =>
      (parseSg cv line).andThen fun sb => ok (st.message cur fun m => { m with sigs := m.sigs ++ [sb] })
  else if startsWith line "VAL_ " then (applyVal cv st line).map .ok
  else if startsWith line "CM_ SG_ " then (applyCmSg cv st line).map .ok
  else if startsWith line "BU_:" then (slice line 4 line.length).map fun t => .ok { st with nodes := fields t }
  else if startsWith line "BA_ \"GenSigStartValue\"" then ok (applyStartValue cv st line)
  else if startsWith line "BA_ \"GenMsgCycleTime\"" then ok (applyCycleTime cv st line)
  else if startsWith line "BA_ \"E2E" then (applyE2eAttr cv st line).map .ok
  else if startsWith line "BA_DEF_DEF_ \"E2E" then
    ok { st with e2eDefaults := st.e2eDefaults ++ [line] }
  else ok st

def parseLines (st : State F) : List Text → Run (State F)
  | [] => ok st
  | raw :: rest => (parseLine cv st (trimSpace raw)).andThen fun st => parseLines st rest

/-- A default fills what a protected message did not state. -/
def applyDefault (msgs : List (MsgBuilder F)) (line : Text) : Option (List (MsgBuilder F)) :=
  let f := fields (trimRight (· = ';') line)
  if f.length < 3 then some msgs
  else
    msgs.mapM fun m =>
      if m.e2e.declared then
        (setE2eField cv m.e2e (f.getD 1 []) (trimSpace (join (f.drop 2))) false).map fun d =>
          { m with e2e := d }
      else some m

def finish (st : State F) : Option (Database F) :=
  (st.e2eDefaults.foldlM (applyDefault cv) st.msgs).map fun msgs =>
    { messages := msgs, nodes := st.nodes }

def parseDbc (text : Text) : Run (Database F) :=
  (parseLines cv {} (splitIntoLines text)).andThen fun st => (finish cv st).map .ok

end Parse

end BloblyEmb.Candb.Dbc
