import BloblyEmb.Candb.Dbc

/-!
# Where a text is cut

Fields are found by their separators, and cut between them. Every cut of the parser is in range but
one: the length of a signal stands between a `|` and an `@`, and nothing says that they come in that
order.
-/
namespace BloblyEmb.Candb.Dbc

/-! ## Cuts -/

theorem slice_eq {t : Text} {a b : ℕ} (hab : a ≤ b) (hb : b ≤ t.length) :
    slice t a b = some ((t.take b).drop a) := if_pos ⟨hab, hb⟩

theorem startsWith_length {t : Text} {s : String} (h : startsWith t s = true) :
    s.toList.length ≤ t.length := (List.isPrefixOf_iff_prefix.mp h).length_le

theorem andThen_eq_none {α β : Type} {r : Run α} {f : α → Run β} :
    r.andThen f = none ↔ r = none ∨ ∃ a, r = ok a ∧ f a = none := by
  match r with
  | none => simp [Run.andThen]
  | some (.error e) => simp [Run.andThen, ok]
  | some (.ok a) => simp [Run.andThen, ok]

section Signals

variable {F : Type} (cv : Conv F) (line : Text)

theorem parseMarker_isSome (hf : List Text) : ∃ mux, parseMarker cv hf = some mux := by
  unfold parseMarker
  cases hf[2]? with
  | none => exact ⟨_, rfl⟩
  | some marker =>
    simp only
    split
    · exact ⟨_, rfl⟩
    split
    case isTrue hm =>
      have hlen : 1 ≤ marker.length := startsWith_length hm
      rw [slice_eq hlen (Nat.le_refl _)]
      exact ⟨_, rfl⟩
    case isFalse => exact ⟨_, rfl⟩

/-- The `@` comes before the first `|`. -/
def Crossed (bitspec : Text) : Prop :=
  ∃ bar at', indexByteFrom bitspec '|' 0 = some bar ∧ indexByteFrom bitspec '@' 0 = some at' ∧
    at' < bar

theorem indexByteFrom_ne {t : Text} {c c' : Char} (hne : c ≠ c') {i : ℕ}
    (h : indexByteFrom t c 0 = some i) : indexByteFrom t c' 0 ≠ some i := by
  intro h'
  simp only [indexByteFrom, List.drop_zero, Nat.zero_add, Option.map_id_fun', id] at h h'
  obtain ⟨hlt, hc, -⟩ := List.findIdx?_eq_some_iff_getElem.mp h
  obtain ⟨_, hc', -⟩ := List.findIdx?_eq_some_iff_getElem.mp h'
  rw [decide_eq_true_eq] at hc hc'
  exact hne (hc.symm.trans hc')

/-- The bit specification can be cut just if it is not crossed. -/
theorem parseBits_eq_none (bitspec : Text) :
    parseBits cv line bitspec = none ↔ Crossed bitspec := by
  unfold parseBits Crossed
  cases hbar : indexByteFrom bitspec '|' 0 with
  | none => simp [error]
  | some bar =>
    cases hat : indexByteFrom bitspec '@' 0 with
    | none => simp [error]
    | some at' =>
      have hbar' := (lt_of_indexByteFrom hbar).2
      have hat' := (lt_of_indexByteFrom hat).2
      have hne : at' ≠ bar := fun he => indexByteFrom_ne (by decide) hat (he ▸ hbar)
      simp only [slice_eq (Nat.zero_le bar) (Nat.le_of_lt hbar'),
        slice_eq (Nat.succ_le_of_lt hat') (Nat.le_refl _), Option.bind_some, Option.some.injEq,
        exists_and_left, exists_eq_left', ok]
      by_cases hcross : at' < bar
      · have hno : ¬(bar + 1 ≤ at' ∧ at' ≤ bitspec.length) := by omega
        have hcut : slice bitspec (bar + 1) at' = none := if_neg hno
        simp [hcut, hcross]
      · rw [slice_eq (by omega) (Nat.le_of_lt hat')]
        simp [hcross]

/-- The bit specification of a signal, where its line is sound up to it. -/
def bitSpec : Option Text :=
  match indexByteFrom line ':' 0 with
  | none => none
  | some colon =>
    let body := trimSpace (line.drop (colon + 1))
    if (fields (trimSpace (line.take colon))).length < 2 then none
    else
      match indexByteFrom body '"' 0 with
      | none => none
      | some q1 =>
        if indexByteFrom body '"' (q1 + 1) = none then none
        else
          let pf := fields (trimSpace (body.take q1))
          if pf.length < 2 then none else some (pf.getD 0 [])

/-- The line of a signal is sound: its specification has both separators, and the byte order and the
sign behind the second. -/
def SoundSg : Prop :=
  ∃ spec bar at', bitSpec line = some spec ∧ indexByteFrom spec '|' 0 = some bar ∧
    indexByteFrom spec '@' 0 = some at' ∧ at' + 2 < spec.length

theorem parseUnit_eq (body : Text) :
    parseUnit line body =
      match indexByteFrom body '"' 0 with
      | none => error "SG_ missing unit quotes: " line
      | some q1 =>
        match indexByteFrom body '"' (q1 + 1) with
        | none => error "SG_ unterminated unit: " line
        | some q2 =>
          ok (trimSpace (body.take q1), (body.take q2).drop (q1 + 1), body.drop (q2 + 1)) := by
  unfold parseUnit
  cases h1 : indexByteFrom body '"' 0 with
  | none => rfl
  | some q1 =>
    simp only
    cases h2 : indexByteFrom body '"' (q1 + 1) with
    | none => rfl
    | some q2 =>
      obtain ⟨hle, hlt⟩ := lt_of_indexByteFrom h2
      simp only
      rw [slice_eq hle (by omega), slice_eq (Nat.zero_le q1) (by omega), slice_eq hlt (Nat.le_refl _),
        List.take_length]
      rfl

/-- The line of a signal, in three steps: up to its bit specification, that, and the rest. -/
theorem parseSg_cases :
    (bitSpec line = none ∧ ∃ e, parseSg cv line = some (.error e)) ∨
      ∃ spec, bitSpec line = some spec ∧ ∃ g : Int → Int → Char → Char → SigBuilder F,
        parseSg cv line = (parseBits cv line spec).andThen fun (start, length, orderSign) =>
          match orderSign with
          | order :: sign :: _ => ok (g start length order sign)
          | _ => error "SG_ bad order/sign: " line := by
  unfold parseSg bitSpec
  cases hcolon : indexByteFrom line ':' 0 with
  | none => exact .inl ⟨rfl, _, rfl⟩
  | some colon =>
    have hlt := (lt_of_indexByteFrom hcolon).2
    simp only
    rw [slice_eq (Nat.zero_le _) (Nat.le_of_lt hlt), slice_eq (show colon + 1 ≤ line.length from hlt)
        (Nat.le_refl _), List.take_length, List.drop_zero]
    simp only [Option.bind_some]
    by_cases hname : (fields (trimSpace (line.take colon))).length < 2
    · simp only [if_pos hname]
      exact .inl ⟨True.intro, _, rfl⟩
    simp only [if_neg hname, parseUnit_eq]
    obtain ⟨mux, hmux⟩ := parseMarker_isSome cv (fields (trimSpace (line.take colon)))
    rw [hmux]
    cases h1 : indexByteFrom (trimSpace (line.drop (colon + 1))) '"' 0 with
    | none => exact .inl ⟨rfl, _, rfl⟩
    | some q1 =>
      simp only
      cases h2 : indexByteFrom (trimSpace (line.drop (colon + 1))) '"' (q1 + 1) with
      | none => exact .inl ⟨if_pos rfl, _, rfl⟩
      | some q2 =>
        simp only [Option.bind_some, Run.andThen, ok, reduceCtorEq, if_false]
        by_cases hlayout :
            (fields (trimSpace ((trimSpace (line.drop (colon + 1))).take q1))).length < 2
        · simp only [if_pos hlayout]
          exact .inl ⟨True.intro, _, rfl⟩
        · simp only [if_neg hlayout]
          exact .inr ⟨_, rfl, _, rfl⟩

theorem parseBits_of_not_crossed {bitspec : Text} (h : ¬Crossed bitspec) :
    (∃ e, parseBits cv line bitspec = some (.error e)) ∧
        (indexByteFrom bitspec '|' 0 = none ∨ indexByteFrom bitspec '@' 0 = none) ∨
      ∃ bar at' start length, indexByteFrom bitspec '|' 0 = some bar ∧
        indexByteFrom bitspec '@' 0 = some at' ∧
        parseBits cv line bitspec = ok (start, length, bitspec.drop (at' + 1)) := by
  have hsome : parseBits cv line bitspec ≠ none := fun hn => h ((parseBits_eq_none cv line _).mp hn)
  unfold parseBits at hsome ⊢
  cases hbar : indexByteFrom bitspec '|' 0 with
  | none => exact .inl ⟨⟨_, rfl⟩, .inl rfl⟩
  | some bar =>
    cases hat : indexByteFrom bitspec '@' 0 with
    | none => exact .inl ⟨⟨_, rfl⟩, .inr rfl⟩
    | some at' =>
      have hbar' := (lt_of_indexByteFrom hbar).2
      have hat' := (lt_of_indexByteFrom hat).2
      rw [hbar, hat] at hsome
      simp only at hsome ⊢
      cases hlen : slice bitspec (bar + 1) at' with
      | none =>
        rw [hlen, slice_eq (Nat.zero_le bar) (Nat.le_of_lt hbar')] at hsome
        exact absurd rfl hsome
      | some length =>
        refine .inr ⟨bar, at', cv.int (bitspec.take bar), cv.int length, rfl, rfl, ?_⟩
        rw [slice_eq (Nat.zero_le bar) (Nat.le_of_lt hbar'),
          slice_eq (show at' + 1 ≤ bitspec.length from hat') (Nat.le_refl _), List.take_length,
          List.drop_zero]
        rfl

/-- The line of a signal is cut out of range just if its specification is crossed. -/
theorem parseSg_eq_none :
    parseSg cv line = none ↔ ∃ spec, bitSpec line = some spec ∧ Crossed spec := by
  rcases parseSg_cases cv line with ⟨hnone, e, he⟩ | ⟨spec, hspec, g, hg⟩
  · rw [he, hnone]
    simp
  · rw [hspec, hg, andThen_eq_none, parseBits_eq_none]
    simp only [Option.some.injEq, exists_eq_left']
    constructor
    · rintro (h | ⟨⟨start, length, orderSign⟩, -, h⟩)
      · exact h
      · exfalso
        simp only at h
        split at h <;> cases h
    · exact .inl

/-- If it is not, then a sound line gives a signal, and another one an error. -/
theorem parseSg_of_not_crossed (h : ∀ spec, bitSpec line = some spec → ¬Crossed spec) :
    (SoundSg line ∧ ∃ sb, parseSg cv line = ok sb) ∨
      (¬SoundSg line ∧ ∃ e, parseSg cv line = some (.error e)) := by
  rcases parseSg_cases cv line with ⟨hnone, he⟩ | ⟨spec, hspec, g, hg⟩
  · refine .inr ⟨?_, he⟩
    rintro ⟨spec, -, -, hspec, -⟩
    rw [hnone] at hspec
    cases hspec
  · rw [hg]
    rcases parseBits_of_not_crossed cv line (h spec hspec) with ⟨⟨e, he⟩, hmissing⟩ |
      ⟨bar, at', start, length, hbar, hat, hbits⟩
    · refine .inr ⟨?_, e, by rw [he]; rfl⟩
      rintro ⟨spec', bar, at', hspec', hbar, hat, -⟩
      rw [hspec] at hspec'
      obtain rfl := Option.some.inj hspec'
      rcases hmissing with hno | hno
      · rw [hno] at hbar
        cases hbar
      · rw [hno] at hat
        cases hat
    · have hlen : (spec.drop (at' + 1)).length = spec.length - (at' + 1) := List.length_drop
      have hsound : SoundSg line ↔ at' + 2 < spec.length := by
        constructor
        · rintro ⟨spec', bar', at'', hspec', -, hat', hlt⟩
          rw [hspec] at hspec'
          obtain rfl := Option.some.inj hspec'
          rw [hat] at hat'
          obtain rfl := Option.some.inj hat'
          exact hlt
        · exact fun hlt => ⟨spec, bar, at', hspec, hbar, hat, hlt⟩
      rw [hbits, hsound]
      simp only [Run.andThen, ok]
      generalize spec.drop (at' + 1) = orderSign at hlen
      match orderSign with
      | [] => exact .inr ⟨by simp at hlen; omega, _, rfl⟩
      | [order] => exact .inr ⟨by simp at hlen; omega, _, rfl⟩
      | order :: sign :: rest => exact .inl ⟨by simp at hlen; omega, _, rfl⟩

end Signals

/-! ## The other lines -/

section Lines

variable {F : Type} (cv : Conv F)

theorem unquoted_isSome (raw : Text) : ∃ str, unquoted raw = some str := by
  unfold unquoted
  split
  case isTrue h => exact ⟨_, slice_eq (by omega) (by omega)⟩
  case isFalse => exact ⟨_, rfl⟩

theorem setE2eField_isSome (d : E2eDecl) (name raw : Text) (overwrite : Bool) :
    ∃ d', setE2eField cv d name raw overwrite = some d' := by
  obtain ⟨str, hstr⟩ := unquoted_isSome raw
  unfold setE2eField
  simp only [hstr, Option.bind_eq_bind, Option.bind_some]
  split
  · exact ⟨_, rfl⟩
  split
  · exact ⟨_, rfl⟩
  split
  · exact ⟨_, rfl⟩
  split
  · split
    · exact ⟨_, rfl⟩
    · split <;> exact ⟨_, rfl⟩
  split
  · split
    · exact ⟨_, rfl⟩
    · split <;> exact ⟨_, rfl⟩
  · exact ⟨_, rfl⟩

/-- The scan of a table ends, and cuts only where it found a quote. -/
theorem scanValues_isSome (t : Text) (vals : UInt64 → Option Text) :
    ∃ vals', scanValues cv t vals = some vals' := by
  induction hn : t.length using Nat.strongRecOn generalizing t vals with
  | ind n ih =>
    rw [scanValues]
    split
    · exact ⟨_, rfl⟩
    simp only
    split
    · exact ⟨_, rfl⟩
    split
    · exact ⟨_, rfl⟩
    rename_i hne q hq _ qe hqe
    obtain ⟨hle, hlt⟩ := lt_of_indexByteFrom hqe
    rw [slice_eq hle (Nat.le_of_lt hlt)]
    simp only
    have hshort : ((t.dropWhile (· = ' ')).dropWhile isNum).length ≤ t.length :=
      ((List.dropWhile_suffix _).trans (List.dropWhile_suffix _)).length_le
    exact ih _ (by rw [List.length_drop]; omega) _ _ rfl

variable (st : State F) (line : Text)

theorem signal_cur (key : UInt64) (name : Text) (f : SigBuilder F → SigBuilder F) :
    (st.signal key name f).cur = st.cur := by
  unfold State.signal
  split
  · rfl
  split <;> rfl

theorem applyVal_total : ∃ st', applyVal cv st line = some st' ∧ st'.cur = st.cur := by
  unfold applyVal
  simp only
  split
  · exact ⟨_, rfl, rfl⟩
  split
  · exact ⟨_, rfl, rfl⟩
  split
  · exact ⟨_, rfl, rfl⟩
  split
  · exact ⟨_, rfl, rfl⟩
  rename_i nameAt hname
  have hroom : nameAt + ((fields (trimSpace (trimRight (· = ';')
      (trimSpace (dropString line "VAL_"))))).getD 1 []).length ≤
      (trimSpace (trimRight (· = ';') (trimSpace (dropString line "VAL_")))).length := by
    unfold indexStr at hname
    split at hname
    · cases hname
    · have := List.mem_range.mp (List.mem_of_find?_eq_some hname)
      omega
  rw [slice_eq hroom (Nat.le_refl _)]
  simp only [Option.bind_eq_bind, Option.bind_some]
  obtain ⟨vals, hvals⟩ := scanValues_isSome cv ((trimSpace (trimRight (· = ';')
    (trimSpace (dropString line "VAL_")))).take
      (trimSpace (trimRight (· = ';') (trimSpace (dropString line "VAL_")))).length |>.drop
        (nameAt + ((fields (trimSpace (trimRight (· = ';')
          (trimSpace (dropString line "VAL_"))))).getD 1 []).length)) fun _ => none
  rw [hvals]
  exact ⟨_, rfl, signal_cur _ _ _ _⟩

/-- A comment gives a description to a signal, and does nothing else. -/
theorem applyCmSg_cases :
    applyCmSg cv st line = some st ∨
      ∃ key name comment, applyCmSg cv st line =
        some (st.signal key name fun s => { s with desc := comment }) := by
  unfold applyCmSg
  simp only
  split
  · exact .inl rfl
  split
  · exact .inl rfl
  split
  · exact .inl rfl
  rename_i q1 _ q2 hq2
  obtain ⟨hle, hlt⟩ := lt_of_indexByteFrom hq2
  rw [slice_eq hle (Nat.le_of_lt hlt)]
  exact .inr ⟨_, _, _, rfl⟩

theorem applyE2eAttr_total : ∃ st', applyE2eAttr cv st line = some st' ∧ st'.cur = st.cur := by
  unfold applyE2eAttr
  simp only
  split
  · exact ⟨_, rfl, rfl⟩
  split
  · exact ⟨_, rfl, rfl⟩
  unfold State.declare
  split
  · exact ⟨_, rfl, rfl⟩
  rename_i m _
  obtain ⟨d, hd⟩ := setE2eField_isSome cv m.e2e
    ((fields (trimRight (· = ';') line)).getD 1 [])
    (if 4 < (fields (trimRight (· = ';') line)).length then
      trimSpace (join ((fields (trimRight (· = ';') line)).drop 4)) else []) true
  simp only [hd]
  exact ⟨_, rfl, rfl⟩

/-- A line that declares neither a message nor a signal is never refused. -/
theorem parseLine_total (hbo : startsWith line "BO_ " = false)
    (hsg : startsWith line "SG_ " = false) :
    ∃ st', parseLine cv st line = ok st' ∧ st'.cur = st.cur := by
  unfold parseLine
  simp only [hbo, hsg, Bool.false_eq_true, if_false]
  split
  · obtain ⟨st', h, hcur⟩ := applyVal_total cv st line
    exact ⟨st', by rw [h]; rfl, hcur⟩
  split
  · rcases applyCmSg_cases cv st line with h | ⟨key, name, comment, h⟩
    · exact ⟨st, by rw [h]; rfl, rfl⟩
    · exact ⟨_, by rw [h]; rfl, signal_cur _ _ _ _⟩
  split
  case isTrue hbu =>
    have hlen : 4 ≤ line.length := startsWith_length hbu
    rw [slice_eq hlen (Nat.le_refl _)]
    exact ⟨_, rfl, rfl⟩
  split
  · refine ⟨_, rfl, ?_⟩
    unfold applyStartValue
    simp only
    split
    · rfl
    · exact signal_cur _ _ _ _
  split
  · refine ⟨_, rfl, ?_⟩
    unfold applyCycleTime
    simp only
    split
    · rfl
    split <;> rfl
  split
  · obtain ⟨st', h, hcur⟩ := applyE2eAttr_total cv st line
    exact ⟨st', by rw [h]; rfl, hcur⟩
  split <;> exact ⟨_, rfl, rfl⟩

theorem parseLine_bo (hbo : startsWith line "BO_ " = true) :
    ((fields line).length < 4 ∧ ∃ e, parseLine cv st line = some (.error e)) ∨
      (4 ≤ (fields line).length ∧ ∃ st', parseLine cv st line = ok st' ∧ st'.cur.isSome = true) := by
  unfold parseLine parseBo
  simp only [hbo, if_true]
  by_cases hlen : (fields line).length < 4
  · rw [if_pos hlen]
    exact .inl ⟨hlen, _, rfl⟩
  · rw [if_neg hlen]
    exact .inr ⟨by omega, _, rfl, rfl⟩

theorem parseLine_sg (hbo : startsWith line "BO_ " = false) (hsg : startsWith line "SG_ " = true) :
    parseLine cv st line =
      match st.cur with
      | none => error "SG_ line with no preceding BO_: " line
      | some cur =>
        (parseSg cv line).andThen fun sb =>
          ok (st.message cur fun m => { m with sigs := m.sigs ++ [sb] }) := by
  have hno : ¬startsWith line "BO_ " = true := by simp [hbo]
  unfold parseLine
  exact (if_neg hno).trans (if_pos hsg)

theorem applyDefault_isSome (msgs : List (MsgBuilder F)) :
    ∃ msgs', applyDefault cv msgs line = some msgs' := by
  unfold applyDefault
  simp only
  split
  · exact ⟨_, rfl⟩
  generalize (fields (trimRight (· = ';') line)).getD 1 [] = name
  generalize trimSpace (join ((fields (trimRight (· = ';') line)).drop 2)) = raw
  induction msgs with
  | nil => exact ⟨[], rfl⟩
  | cons m ms ih =>
    obtain ⟨ms', hms⟩ := ih
    obtain ⟨d, hd⟩ := setE2eField_isSome cv m.e2e name raw false
    rw [List.mapM_cons, hms, hd]
    split <;> exact ⟨_, rfl⟩

theorem finish_isSome : ∃ db, finish cv st = some db := by
  have hdefaults : ∀ (lines : List Text) (msgs : List (MsgBuilder F)),
      ∃ msgs', lines.foldlM (applyDefault cv) msgs = some msgs' := by
    intro lines
    induction lines with
    | nil => exact fun msgs => ⟨msgs, rfl⟩
    | cons l ls ih =>
      intro msgs
      obtain ⟨msgs', h⟩ := applyDefault_isSome cv l msgs
      rw [List.foldlM_cons, h]
      exact ih msgs'
  obtain ⟨msgs, h⟩ := hdefaults st.e2eDefaults st.msgs
  exact ⟨_, by rw [finish, h]; rfl⟩

end Lines

/-! ## The text -/

/-- The lines of signals that are read have specifications in which the `@` does not come before the
`|`. What stands behind a line that is refused is not read, and neither is a signal before the first
message, which `seen` says there was. -/
def Uncrossed (seen : Bool) : List Text → Prop
  | [] => True
  | raw :: rest =>
    let line := trimSpace raw
    if startsWith line "BO_ " then 4 ≤ (fields line).length → Uncrossed true rest
    else if startsWith line "SG_ " then
      seen = true →
        (∀ spec, bitSpec line = some spec → ¬Crossed spec) ∧ (SoundSg line → Uncrossed seen rest)
    else Uncrossed seen rest

section Whole

variable {F : Type} (cv : Conv F)

/-- The lines are read to their end, or to an error, just if the cuts are in order. By induction on
the lines: the state says only whether there was a message. -/
theorem parseLines_ne_none (lines : List Text) (st : State F) :
    parseLines cv st lines ≠ none ↔ Uncrossed st.cur.isSome lines := by
  induction lines generalizing st with
  | nil => simp [parseLines, Uncrossed, ok]
  | cons raw rest ih =>
    rw [parseLines, Uncrossed]
    cases hbo : startsWith (trimSpace raw) "BO_ " with
    | true =>
      rw [if_pos rfl]
      rcases parseLine_bo cv st _ hbo with ⟨hlen, e, he⟩ | ⟨hlen, st', h, hcur⟩
      · rw [he]
        simp only [Run.andThen, ne_eq, reduceCtorEq, not_false_eq_true, true_iff]
        exact fun hle => absurd hle (by omega)
      · rw [h, ← hcur, ← ih st']
        exact ⟨fun hne _ => hne, fun hall => hall hlen⟩
    | false =>
      cases hsg : startsWith (trimSpace raw) "SG_ " with
      | false =>
        obtain ⟨st', h, hcur⟩ := parseLine_total cv st _ hbo hsg
        simp only [Bool.false_eq_true, if_false]
        rw [h, ← hcur]
        exact ih st'
      | true =>
        simp only [Bool.false_eq_true, if_false, if_true]
        rw [parseLine_sg cv st _ hbo hsg]
        cases hcur : st.cur with
        | none => simp [error, Run.andThen]
        | some cur =>
          simp only [Option.isSome_some, forall_const]
          by_cases hcross : ∀ spec, bitSpec (trimSpace raw) = some spec → ¬Crossed spec
          · rcases parseSg_of_not_crossed cv _ hcross with ⟨hsound, sb, hsb⟩ | ⟨hsound, e, he⟩
            · rw [hsb]
              have hrest := ih (st.message cur fun m => { m with sigs := m.sigs ++ [sb] })
              have hseen : (st.message cur fun m => { m with sigs := m.sigs ++ [sb] }).cur = some cur :=
                hcur
              rw [hseen] at hrest
              exact hrest.trans ⟨fun h => ⟨hcross, fun _ => h⟩, fun h => h.2 hsound⟩
            · rw [he]
              simp only [Run.andThen, ne_eq, reduceCtorEq, not_false_eq_true, true_iff]
              exact ⟨hcross, fun h => absurd h hsound⟩
          · have hnone : parseSg cv (trimSpace raw) = none := by
              rw [parseSg_eq_none]
              simpa using hcross
            rw [hnone]
            simp only [Run.andThen, ne_eq, not_true_eq_false, false_iff]
            exact fun h => hcross h.1

/-- A text is a database or an error just if the cuts of its signals are in order. -/
theorem parseDbc_total (text : Text) :
    ((∃ db, parseDbc cv text = ok db) ∨ ∃ e, parseDbc cv text = some (.error e)) ↔
      Uncrossed false (splitIntoLines text) := by
  have hlines := parseLines_ne_none cv (splitIntoLines text) ({} : State F)
  rw [Option.isSome_none] at hlines
  rw [← hlines, parseDbc]
  match parseLines cv ({} : State F) (splitIntoLines text) with
  | none => simp [Run.andThen, ok]
  | some (.error e) => simp [Run.andThen]
  | some (.ok st) =>
    obtain ⟨db, hdb⟩ := finish_isSome cv st
    simp [Run.andThen, ok, hdb]

end Whole

/-- The number that a text begins with. -/
def digits (t : Text) : ℕ := (t.takeWhile Char.isDigit).foldl (fun n c => 10 * n + (c.toNat - 48)) 0

/-- Strings read as numbers without sign or fraction. -/
def plain : Conv ℕ where
  int t := digits t
  u64 t := (digits t).toUInt64
  i64 t := digits t
  f64 := digits
  zero := 0

/-- A message with a signal whose `@` comes first. -/
def crossedText : Text :=
  "BO_ 1 A: 8 X\n SG_ s : 0@1+|8 (1,0) [0|0] \"\" X\n".toList

theorem crossed_line_cut :
    ¬((∃ db, parseDbc plain crossedText = ok db) ∨
      ∃ e, parseDbc plain crossedText = some (.error e)) := by
  have hnone : (parseDbc plain crossedText).isNone = true := by decide +kernel
  rw [Option.isNone_iff_eq_none] at hnone
  rw [hnone]
  simp [ok]

end BloblyEmb.Candb.Dbc
