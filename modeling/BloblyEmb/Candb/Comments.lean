import BloblyEmb.Candb.Total

/-!
# Comments

A comment is free text between quotes, and it may run over lines. The parser does not follow the
quotes: it takes each line by its first token. A comment changes nothing but descriptions as long as
no line that it stands on begins like a statement.
-/
namespace BloblyEmb.Candb.Dbc

variable {F : Type}

/-! ## Without descriptions -/

def SigBuilder.bare (s : SigBuilder F) : SigBuilder F := { s with desc := [] }

def MsgBuilder.bare (m : MsgBuilder F) : MsgBuilder F := { m with sigs := m.sigs.map SigBuilder.bare }

def State.bare (st : State F) : State F := { st with msgs := st.msgs.map MsgBuilder.bare }

def Database.bare (db : Database F) : Database F :=
  { db with messages := db.messages.map MsgBuilder.bare }

/-- What was read, up to `f`. -/
def Run.upTo {α β : Type} (f : α → β) (r : Run α) : Run β := r.map (Except.map f)

@[simp] theorem upTo_none {α β : Type} (f : α → β) : Run.upTo f none = none := rfl

@[simp] theorem upTo_error {α β : Type} (f : α → β) (e : Text) :
    Run.upTo f (some (.error e)) = some (.error e) := rfl

@[simp] theorem upTo_ok {α β : Type} (f : α → β) (a : α) : Run.upTo f (some (.ok a)) = ok (f a) := rfl

/-- The same branch is taken on both sides. -/
theorem upTo_ite {α β : Type} {f : α → β} {p : Prop} [Decidable p] {r r' s s' : Run α}
    (hr : r.upTo f = r'.upTo f) (hs : s.upTo f = s'.upTo f) :
    Run.upTo f (if p then r else s) = Run.upTo f (if p then r' else s') := by
  split
  · exact hr
  · exact hs

/-- Runs that agree up to `f`, and go on to agree. -/
theorem upTo_andThen {α β γ δ : Type} {f : α → γ} {g : β → δ} {r r' : Run α} {k k' : α → Run β}
    (h : r.upTo f = r'.upTo f) (hk : ∀ a a', f a = f a' → (k a).upTo g = (k' a').upTo g) :
    (r.andThen k).upTo g = (r'.andThen k').upTo g := by
  match r, r' with
  | none, none => rfl
  | none, some (.error e) => cases h
  | none, some (.ok a) => cases h
  | some (.error e), none => cases h
  | some (.error e), some (.error e') =>
    cases h
    rfl
  | some (.error e), some (.ok a) => cases h
  | some (.ok a), none => cases h
  | some (.ok a), some (.error e) => cases h
  | some (.ok a), some (.ok a') =>
    simp only [upTo_ok, ok, Option.some.injEq, Except.ok.injEq] at h
    exact hk a a' h

/-- A change of a list's element, and a map. -/
theorem map_modify_eq {α β : Type} (g : α → β) (f f' : α → α) (l l' : List α)
    (hl : l.map g = l'.map g) (hf : ∀ a a', g a = g a' → g (f a) = g (f' a')) (i : ℕ) :
    (l.modify i f).map g = (l'.modify i f').map g := by
  induction l generalizing l' i with
  | nil =>
    obtain rfl : l' = [] := by simpa using hl.symm
    simp
  | cons a as ih =>
    match l' with
    | [] => simp at hl
    | a' :: as' =>
      simp only [List.map_cons, List.cons.injEq] at hl
      cases i with
      | zero => simp [hl.2, hf a a' hl.1]
      | succ i => simp [hl.1, ih as' hl.2 i]

/-! ## One line -/

section Line

variable {st st' : State F}

/-- Two states that differ in descriptions. -/
theorem bare_eq_iff : st.bare = st'.bare ↔
    st.msgs.map MsgBuilder.bare = st'.msgs.map MsgBuilder.bare ∧ st.byId = st'.byId ∧
      st.cur = st'.cur ∧ st.nodes = st'.nodes ∧ st.e2eDefaults = st'.e2eDefaults := by
  simp [State.bare]

theorem message_bare (h : st.bare = st'.bare) (idx : ℕ) {f f' : MsgBuilder F → MsgBuilder F}
    (hf : ∀ m m', m.bare = m'.bare → (f m).bare = (f' m').bare) :
    (st.message idx f).bare = (st'.message idx f').bare := by
  rw [bare_eq_iff] at h ⊢
  exact ⟨map_modify_eq _ f f' _ _ h.1 hf idx, h.2⟩

theorem signalIndex_bare (m : MsgBuilder F) (name : Text) :
    signalIndex m.bare name = signalIndex m name := by
  rw [signalIndex, MsgBuilder.bare, List.findIdx?_map]
  rfl

/-- A signal is looked up by names, which descriptions are not. -/
theorem lookup_bare (h : st.bare = st'.bare) (mi : ℕ) (name : Text) :
    ((st.msgs[mi]?).bind fun m => signalIndex m name) =
      (st'.msgs[mi]?).bind fun m => signalIndex m name := by
  have hmsgs : (st.msgs.map MsgBuilder.bare)[mi]? = (st'.msgs.map MsgBuilder.bare)[mi]? := by
    rw [(bare_eq_iff.mp h).1]
  simp only [List.getElem?_map] at hmsgs
  have hbare : ∀ o : Option (MsgBuilder F),
      (o.bind fun m => signalIndex m name) = (o.map MsgBuilder.bare).bind fun m => signalIndex m name := by
    intro o
    cases o with
    | none => rfl
    | some m => exact (signalIndex_bare m name).symm
  rw [hbare st.msgs[mi]?, hmsgs, ← hbare]

theorem signal_bare (h : st.bare = st'.bare) (key : UInt64) (name : Text)
    {f f' : SigBuilder F → SigBuilder F} (hf : ∀ s s', s.bare = s'.bare → (f s).bare = (f' s').bare) :
    (st.signal key name f).bare = (st'.signal key name f').bare := by
  unfold State.signal
  rw [(bare_eq_iff.mp h).2.1]
  cases st'.byId key with
  | none => exact h
  | some mi =>
    simp only
    rw [lookup_bare h]
    cases (st'.msgs[mi]?).bind fun m => signalIndex m name with
    | none => exact h
    | some si =>
      refine message_bare h mi fun m m' hm => ?_
      simp only [MsgBuilder.bare, MsgBuilder.mk.injEq] at hm ⊢
      exact ⟨hm.1, hm.2.1, hm.2.2.1, hm.2.2.2.1, hm.2.2.2.2.1, hm.2.2.2.2.2.1,
        map_modify_eq _ f f' _ _ hm.2.2.2.2.2.2.1 hf si, hm.2.2.2.2.2.2.2⟩

/-- Two results of a line that differ in descriptions. -/
theorem some_bare {o o' : Option (State F)} (h : o.map State.bare = o'.map State.bare) :
    Run.upTo State.bare (o.map .ok) = Run.upTo State.bare (o'.map .ok) := by
  cases o with
  | none =>
    cases o' with
    | none => rfl
    | some b => cases h
  | some a =>
    cases o' with
    | none => cases h
    | some b =>
      simp only [Option.map_some, Option.some.injEq] at h
      simp [h]

variable (cv : Conv F)

theorem applyVal_bare (h : st.bare = st'.bare) (line : Text) :
    (applyVal cv st line).map State.bare = (applyVal cv st' line).map State.bare := by
  unfold applyVal
  simp only
  rw [(bare_eq_iff.mp h).2.1]
  split
  · simp [h]
  cases st'.byId (maskedKey cv ((fields (trimSpace (trimRight (· = ';')
    (trimSpace (dropString line "VAL_"))))).getD 0 [])) with
  | none => simp [h]
  | some mi =>
    simp only
    rw [lookup_bare h]
    split
    · simp [h]
    split
    · simp [h]
    generalize maskedKey cv _ = key
    generalize slice _ _ _ = cut
    cases cut with
    | none => rfl
    | some rest =>
      simp only [Option.bind_eq_bind, Option.bind_some]
      generalize scanValues cv rest (fun _ => none) = read
      cases read with
      | none => rfl
      | some vals =>
        simp only [Option.bind_some, Option.map_some, Option.some.injEq]
        apply signal_bare h
        intro s s' hs
        simp only [SigBuilder.bare, SigBuilder.mk.injEq] at hs ⊢
        simp [hs]

theorem applyE2eAttr_bare (h : st.bare = st'.bare) (line : Text) :
    (applyE2eAttr cv st line).map State.bare = (applyE2eAttr cv st' line).map State.bare := by
  unfold applyE2eAttr
  simp only
  rw [(bare_eq_iff.mp h).2.1]
  split
  · simp [h]
  split
  · simp [h]
  rename_i idx _
  unfold State.declare
  have hmsgs : (st.msgs[idx]?).map MsgBuilder.bare = (st'.msgs[idx]?).map MsgBuilder.bare := by
    rw [← List.getElem?_map, ← List.getElem?_map, (bare_eq_iff.mp h).1]
  cases hm : st.msgs[idx]? with
  | none =>
    cases hm' : st'.msgs[idx]? with
    | none => simp [h]
    | some m' => simp [hm, hm'] at hmsgs
  | some m =>
    cases hm' : st'.msgs[idx]? with
    | none => simp [hm, hm'] at hmsgs
    | some m' =>
      have he2e : m.e2e = m'.e2e := by
        simp only [hm, hm', Option.map_some, Option.some.injEq, MsgBuilder.bare,
          MsgBuilder.mk.injEq] at hmsgs
        exact hmsgs.2.2.2.2.2.2.2
      simp only [he2e, Option.map_map]
      congr 1
      funext d
      refine message_bare h idx fun m m' hm => ?_
      simp only [MsgBuilder.bare, MsgBuilder.mk.injEq] at hm ⊢
      simp [hm]

theorem applyStartValue_bare (h : st.bare = st'.bare) (line : Text) :
    (applyStartValue cv st line).bare = (applyStartValue cv st' line).bare := by
  unfold applyStartValue
  simp only
  split
  · exact h
  apply signal_bare h
  intro s s' hs
  simp only [SigBuilder.bare, SigBuilder.mk.injEq] at hs ⊢
  simp [hs]

theorem applyCycleTime_bare (h : st.bare = st'.bare) (line : Text) :
    (applyCycleTime cv st line).bare = (applyCycleTime cv st' line).bare := by
  unfold applyCycleTime
  simp only
  rw [(bare_eq_iff.mp h).2.1]
  split
  · exact h
  split
  · exact h
  refine message_bare h _ fun m m' hm => ?_
  simp only [MsgBuilder.bare, MsgBuilder.mk.injEq] at hm ⊢
  simp [hm]

/-- A description is all that a comment changes. -/
theorem applyCmSg_bare (st : State F) (line : Text) :
    ∃ st', applyCmSg cv st line = some st' ∧ st'.bare = st.bare := by
  rcases applyCmSg_cases cv st line with hcm | ⟨key, name, comment, hcm⟩
  · exact ⟨st, hcm, rfl⟩
  · refine ⟨_, hcm, ?_⟩
    unfold State.signal
    split
    · rfl
    split
    · rfl
    have hid : ∀ si (m : MsgBuilder F),
        MsgBuilder.bare { m with sigs := m.sigs.modify si fun s => { s with desc := comment } } =
          m.bare := by
      intro si m
      have hsigs := map_modify_eq SigBuilder.bare (fun s => { s with desc := comment }) id m.sigs
        m.sigs rfl (fun _ _ hs => hs) si
      rw [List.modify_id] at hsigs
      simp only [MsgBuilder.bare, hsigs]
    rename_i mi _ _ si _
    have hmsgs := map_modify_eq MsgBuilder.bare
      (fun m => { m with sigs := m.sigs.modify si fun s => { s with desc := comment } }) id st.msgs
      st.msgs rfl (fun m m' hm => (hid si m).trans hm) mi
    rw [List.modify_id] at hmsgs
    exact bare_eq_iff.mpr ⟨hmsgs, rfl, rfl, rfl, rfl⟩

/-- What a line does depends on no description. -/
theorem parseLine_bare (h : st.bare = st'.bare) (line : Text) :
    (parseLine cv st line).upTo State.bare = (parseLine cv st' line).upTo State.bare := by
  obtain ⟨hmsgs, hid, hcur, hnodes, hdef⟩ := bare_eq_iff.mp h
  have hlen : st.msgs.length = st'.msgs.length := by simpa using congrArg List.length hmsgs
  unfold parseLine
  refine upTo_ite ?_ ?_
  · refine upTo_andThen (f := id) rfl fun mb mb' hmb => ?_
    obtain rfl : mb = mb' := hmb
    simp only [ok, upTo_ok, Option.some.injEq, Except.ok.injEq]
    exact bare_eq_iff.mpr ⟨by simp [hmsgs], by simp [hid, hlen], by simp [hlen], hnodes, hdef⟩
  refine upTo_ite ?_ ?_
  · rw [hcur]
    cases st'.cur with
    | none => rfl
    | some cur =>
      refine upTo_andThen (f := id) rfl fun sb sb' hsb => ?_
      obtain rfl : sb = sb' := hsb
      simp only [ok, upTo_ok, Option.some.injEq, Except.ok.injEq]
      refine message_bare h cur fun m m' hm => ?_
      simp only [MsgBuilder.bare, MsgBuilder.mk.injEq] at hm ⊢
      simp [hm]
  refine upTo_ite ?_ ?_
  · exact some_bare (applyVal_bare cv h line)
  refine upTo_ite ?_ ?_
  · obtain ⟨st₁, hcm, hst₁⟩ := applyCmSg_bare cv st line
    obtain ⟨st₂, hcm', hst₂⟩ := applyCmSg_bare cv st' line
    rw [hcm, hcm']
    simp [hst₁, hst₂, h]
  refine upTo_ite ?_ ?_
  · cases slice line 4 line.length with
    | none => rfl
    | some t =>
      simp only [Option.map_some, upTo_ok, ok, Option.some.injEq, Except.ok.injEq]
      exact bare_eq_iff.mpr ⟨hmsgs, hid, hcur, rfl, hdef⟩
  refine upTo_ite ?_ ?_
  · simp [ok, applyStartValue_bare cv h line]
  refine upTo_ite ?_ ?_
  · simp [ok, applyCycleTime_bare cv h line]
  refine upTo_ite ?_ ?_
  · exact some_bare (applyE2eAttr_bare cv h line)
  refine upTo_ite ?_ ?_
  · simp only [ok, upTo_ok, Option.some.injEq, Except.ok.injEq]
    exact bare_eq_iff.mpr ⟨hmsgs, hid, hcur, hnodes, by simp [hdef]⟩
  · simp [ok, h]

end Line

/-! ## The statements of a text -/

/-- The first tokens that the parser knows, but for that of a comment. -/
def isStatement (line : Text) : Bool :=
  ["BO_ ", "SG_ ", "VAL_ ", "BU_:", "BA_ \"GenSigStartValue\"", "BA_ \"GenMsgCycleTime\"",
    "BA_ \"E2E", "BA_DEF_DEF_ \"E2E"].any (startsWith line)

/-- The lines that state something, as they stand. -/
def statements (lines : List Text) : List Text := lines.filter fun raw => isStatement (trimSpace raw)

section Text

variable (cv : Conv F)

/-- A line that is no statement changes descriptions at most. -/
theorem parseLine_of_not_isStatement (st : State F) {line : Text} (h : isStatement line = false) :
    ∃ st', parseLine cv st line = ok st' ∧ st'.bare = st.bare := by
  simp only [isStatement, List.any_cons, List.any_nil, Bool.or_false, Bool.or_eq_false_iff] at h
  obtain ⟨hbo, hsg, hval, hbu, hstart, hcycle, he2e, hdef⟩ := h
  unfold parseLine
  simp only [hbo, hsg, hval, hbu, hstart, hcycle, he2e, hdef, Bool.false_eq_true, if_false]
  split
  · obtain ⟨st', hcm, hst'⟩ := applyCmSg_bare cv st line
    exact ⟨st', by rw [hcm]; rfl, hst'⟩
  · exact ⟨st, rfl, rfl⟩

theorem parseLines_bare (lines : List Text) {st st' : State F} (h : st.bare = st'.bare) :
    (parseLines cv st lines).upTo State.bare = (parseLines cv st' lines).upTo State.bare := by
  induction lines generalizing st st' with
  | nil => simp [parseLines, ok, h]
  | cons raw rest ih => exact upTo_andThen (parseLine_bare cv h _) fun _ _ => ih

/-- Only the statements of a text matter. By induction on its lines. -/
theorem parseLines_filter (lines : List Text) (st : State F) :
    (parseLines cv st lines).upTo State.bare =
      (parseLines cv st (statements lines)).upTo State.bare := by
  unfold statements
  induction lines generalizing st with
  | nil => rfl
  | cons raw rest ih =>
    cases h : isStatement (trimSpace raw) with
    | false =>
      obtain ⟨st', hline, hst'⟩ := parseLine_of_not_isStatement cv st h
      rw [List.filter_cons_of_neg (by simp [h]), ← ih, parseLines, hline]
      exact parseLines_bare cv rest hst'
    | true =>
      rw [List.filter_cons_of_pos (by simp [h]), parseLines, parseLines]
      exact upTo_andThen rfl fun a a' ha => (ih a).trans (parseLines_bare cv _ ha)

theorem applyDefault_bare (msgs : List (MsgBuilder F)) (line : Text) :
    applyDefault cv (msgs.map MsgBuilder.bare) line =
      (applyDefault cv msgs line).map (List.map MsgBuilder.bare) := by
  unfold applyDefault
  simp only
  split
  · rfl
  generalize (fields (trimRight (· = ';') line)).getD 1 [] = name
  generalize trimSpace (join ((fields (trimRight (· = ';') line)).drop 2)) = raw
  induction msgs with
  | nil => rfl
  | cons m ms ih =>
    obtain ⟨d, hd⟩ := setE2eField_isSome cv m.e2e name raw false
    have he2e : m.bare.e2e = m.e2e := rfl
    rw [List.map_cons, List.mapM_cons, List.mapM_cons, ih, he2e, hd]
    cases List.mapM (fun m : MsgBuilder F => if m.e2e.declared = true then
      (setE2eField cv m.e2e name raw false).map fun d => { m with e2e := d } else some m) ms with
    | none => split <;> rfl
    | some ms' => split <;> rfl

theorem finish_bare (st : State F) : finish cv st.bare = (finish cv st).map Database.bare := by
  unfold finish
  have hdefaults : ∀ (lines : List Text) (msgs : List (MsgBuilder F)),
      lines.foldlM (applyDefault cv) (msgs.map MsgBuilder.bare) =
        (lines.foldlM (applyDefault cv) msgs).map (List.map MsgBuilder.bare) := by
    intro lines
    induction lines with
    | nil => exact fun msgs => rfl
    | cons l ls ih =>
      intro msgs
      obtain ⟨msgs', h⟩ := applyDefault_isSome cv l msgs
      rw [List.foldlM_cons, List.foldlM_cons, applyDefault_bare, h]
      exact ih msgs'
  rw [show st.bare.e2eDefaults = st.e2eDefaults from rfl,
    show st.bare.msgs = st.msgs.map MsgBuilder.bare from rfl, hdefaults]
  cases List.foldlM (applyDefault cv) st.msgs st.e2eDefaults <;> rfl

/-- Texts with the same statements are the same database, up to descriptions. -/
theorem parseDbc_of_statements {text text' : Text}
    (h : statements (splitIntoLines text) = statements (splitIntoLines text')) :
    (parseDbc cv text).upTo Database.bare = (parseDbc cv text').upTo Database.bare := by
  have hlines : (parseLines cv {} (splitIntoLines text)).upTo State.bare =
      (parseLines cv {} (splitIntoLines text')).upTo State.bare := by
    rw [parseLines_filter, h, ← parseLines_filter]
  refine upTo_andThen hlines fun st st' hst => ?_
  have hfinish : (finish cv st).map Database.bare = (finish cv st').map Database.bare := by
    rw [← finish_bare, ← finish_bare, hst]
  cases hdb : finish cv st with
  | none => cases hdb' : finish cv st' <;> simp_all
  | some db => cases hdb' : finish cv st' <;> simp_all

end Text

/-! ## The strings of comments -/

/-- A text in which the strings of the comments, with their quotes, are marked. -/
abbrev Marked := List (Bool × Char)

def Marked.text (m : Marked) : Text := m.map Prod.snd

def unmarked (t : Text) : Marked := t.map (false, ·)

def marked (t : Text) : Marked := t.map (true, ·)

/-- Texts that differ in what stands between the quotes of their comments. -/
inductive SameBut : Marked → Marked → Prop
  | nil : SameBut [] []
  | cons {m m' : Marked} (c : Char) : SameBut m m' → SameBut ((false, c) :: m) ((false, c) :: m')
  | comment {m m' : Marked} (s s' : Text) :
      SameBut m m' → SameBut (marked ('"' :: s ++ ['"']) ++ m) (marked ('"' :: s' ++ ['"']) ++ m')

theorem SameBut.unmarked {m m' : Marked} (t : Text) (h : SameBut m m') :
    SameBut (Dbc.unmarked t ++ m) (Dbc.unmarked t ++ m') := by
  induction t with
  | nil => exact h
  | cons c t ih => exact .cons c ih

/-- `linesAux`, on a text with marks. -/
def markedLinesAux : Marked → Marked → List Marked
  | [], acc => if acc = [] then [] else [acc.reverse]
  | (_, '\r') :: (_, '\n') :: cs, acc => acc.reverse :: markedLinesAux cs []
  | c :: cs, acc =>
    if c.2 = '\n' ∨ c.2 = '\r' then acc.reverse :: markedLinesAux cs []
    else markedLinesAux cs (c :: acc)

theorem linesAux_marked (c : Bool × Char) (cs acc : Marked)
    (hcrlf : ∀ b b' cs', c = (b, '\r') → cs = (b', '\n') :: cs' → False) :
    linesAux (Marked.text (c :: cs)) acc.text =
      if c.2 = '\n' ∨ c.2 = '\r' then acc.text.reverse :: linesAux cs.text []
      else linesAux cs.text (Marked.text (c :: acc)) := by
  refine linesAux.eq_3 acc.text c.2 cs.text fun cs' hc hcs => ?_
  match cs with
  | [] => cases hcs
  | (b', d) :: rest =>
    obtain rfl : d = '\n' := (List.cons.inj hcs).1
    exact hcrlf c.1 b' rest (Prod.ext rfl hc) rfl

theorem markedLinesAux_text (m acc : Marked) :
    (markedLinesAux m acc).map Marked.text = linesAux m.text acc.text := by
  fun_induction markedLinesAux m acc with
  | case1 => rfl
  | case2 acc hacc => simp [Marked.text, linesAux, hacc]
  | case3 acc _ _ cs ih => simpa [Marked.text, linesAux] using ih
  | case4 c cs acc hcrlf hnl ih =>
    rw [linesAux_marked c cs acc hcrlf, if_pos hnl, List.map_cons, ih]
    simp [Marked.text]
  | case5 c cs acc hcrlf hnl ih =>
    rw [linesAux_marked c cs acc hcrlf, if_neg hnl, ih]

/-- No line that a comment's string stands on begins like a statement. -/
def Quiet (m : Marked) : Prop :=
  ∀ l ∈ markedLinesAux m [], l.any Prod.fst = true → isStatement (trimSpace l.text) = false

/-- The line is a statement that no comment's string stands on. -/
def keep (l : Marked) : Bool := !l.any Prod.fst && isStatement (trimSpace l.text)

def kept (m acc : Marked) : List Marked := (markedLinesAux m acc).filter keep

theorem keep_nil : keep [] = false := by decide

theorem kept_nil (acc : Marked) : kept [] acc = [acc.reverse].filter keep := by
  unfold kept markedLinesAux
  split
  case isTrue h =>
    subst h
    rfl
  case isFalse => rfl

/-- An empty line is no statement, so it does not matter that both characters end one line. -/
theorem kept_cons (c : Bool × Char) (m acc : Marked) :
    kept (c :: m) acc =
      if c.2 = '\n' ∨ c.2 = '\r' then [acc.reverse].filter keep ++ kept m []
      else kept m (c :: acc) := by
  unfold kept
  rw [markedLinesAux.eq_def]
  split
  case h_1 => cases ‹c :: m = []›
  case h_2 acc b b' cs heq =>
    obtain ⟨rfl, rfl⟩ := List.cons.inj heq
    have hempty : markedLinesAux ((b', '\n') :: cs) [] = [] :: markedLinesAux cs [] := by
      simp [markedLinesAux]
    rw [if_pos (.inr rfl), hempty, ← List.filter_append]
    simp [List.filter_cons, keep_nil]
  case h_3 acc c' cs _ heq =>
    obtain ⟨rfl, rfl⟩ := List.cons.inj heq
    split
    · rw [← List.filter_append]
      rfl
    · rfl

/-- Nothing is kept of a line that a comment's string stands on. -/
theorem filter_touched {acc : Marked} (h : acc.any Prod.fst = true) : [acc.reverse].filter keep = [] := by
  simp [keep, h]

/-- Of a comment's string nothing is kept, whatever is in it. By induction on it. -/
theorem kept_string (s : Text) (m : Marked) {acc : Marked} (h : acc.any Prod.fst = true ∨ acc = []) :
    ∃ acc' : Marked, acc'.any Prod.fst = true ∧ kept (marked (s ++ ['"']) ++ m) acc = kept m acc' := by
  induction s generalizing acc with
  | nil =>
    refine ⟨(true, '"') :: acc, rfl, ?_⟩
    have hcons := kept_cons (true, '"') m acc
    rw [if_neg (by decide)] at hcons
    exact hcons
  | cons c s ih =>
    have hcons := kept_cons (true, c) (marked (s ++ ['"']) ++ m) acc
    by_cases hnl : c = '\n' ∨ c = '\r'
    · obtain ⟨acc', hacc', hkept⟩ := @ih [] (.inr rfl)
      refine ⟨acc', hacc', ?_⟩
      have hline : [acc.reverse].filter keep = [] := by
        rcases h with h | rfl
        · exact filter_touched h
        · rfl
      rw [if_pos hnl, hline, List.nil_append, hkept] at hcons
      exact hcons
    · obtain ⟨acc', hacc', hkept⟩ := @ih ((true, c) :: acc) (.inl rfl)
      rw [if_neg hnl, hkept] at hcons
      exact ⟨acc', hacc', hcons⟩

/-- By induction on how the texts differ: the lines that both are in the middle of are the same, or a
string stands on each. -/
theorem SameBut.kept_eq {m m' : Marked} (h : SameBut m m') (acc acc' : Marked)
    (hacc : acc = acc' ∨ acc.any Prod.fst = true ∧ acc'.any Prod.fst = true) :
    kept m acc = kept m' acc' := by
  induction h generalizing acc acc' with
  | nil =>
    rw [kept_nil, kept_nil]
    rcases hacc with rfl | ⟨h, h'⟩
    · rfl
    · rw [filter_touched h, filter_touched h']
  | cons c _ ih =>
    rw [kept_cons, kept_cons]
    split
    · rcases hacc with rfl | ⟨h, h'⟩
      · rw [ih [] [] (.inl rfl)]
      · rw [filter_touched h, filter_touched h', ih [] [] (.inl rfl)]
    · refine ih _ _ ?_
      rcases hacc with rfl | ⟨h, h'⟩
      · exact .inl rfl
      · exact .inr ⟨by simp [h], by simp [h']⟩
  | @comment m m' s s' _ ih =>
    have hopen : ∀ (t : Text) (n acc : Marked),
        kept (marked ('"' :: t ++ ['"']) ++ n) acc =
          kept (marked (t ++ ['"']) ++ n) ((true, '"') :: acc) := by
      intro t n acc
      have hcons := kept_cons (true, '"') (marked (t ++ ['"']) ++ n) acc
      rw [if_neg (by decide)] at hcons
      exact hcons
    obtain ⟨a, ha, hkept⟩ := @kept_string s m ((true, '"') :: acc) (.inl rfl)
    obtain ⟨a', ha', hkept'⟩ := @kept_string s' m' ((true, '"') :: acc') (.inl rfl)
    rw [hopen, hopen, hkept, hkept']
    exact ih a a' (.inr ⟨ha, ha'⟩)

/-- The statements of a quiet text stand outside of the comments' strings. -/
theorem Quiet.statements_eq {m : Marked} (h : Quiet m) :
    statements (splitIntoLines m.text) = (kept m []).map Marked.text := by
  rw [splitIntoLines, show ([] : Text) = Marked.text [] from rfl, ← markedLinesAux_text, statements,
    List.filter_map, kept]
  congr 1
  refine List.filter_congr fun l hl => ?_
  cases htouched : l.any Prod.fst with
  | false => simp [keep, htouched]
  | true => simp [keep, htouched, h l hl htouched]

/-- What stands in the comments changes nothing but descriptions, as long as no line of theirs begins
like a statement. -/
theorem parseDbc_comments (cv : Conv F) {m m' : Marked} (h : SameBut m m') (hm : Quiet m)
    (hm' : Quiet m') :
    (parseDbc cv m.text).upTo Database.bare = (parseDbc cv m'.text).upTo Database.bare :=
  parseDbc_of_statements cv (by rw [hm.statements_eq, hm'.statements_eq, h.kept_eq [] [] (.inl rfl)])

/-- A message with a signal that has a comment. -/
def commented (comment : String) : Marked :=
  unmarked "BO_ 1 A: 8 X\n SG_ s : 0|8@1+ (1,0) [0|0] \"\" X\nCM_ SG_ 1 s ".toList ++
    (marked ('"' :: comment.toList ++ ['"']) ++ unmarked " ;\n".toList)

theorem sameBut_commented (c c' : String) : SameBut (commented c) (commented c') := by
  have htail := (SameBut.nil).unmarked " ;\n".toList
  rw [List.append_nil] at htail
  exact (SameBut.comment c.toList c'.toList htail).unmarked _

theorem parseDbc_comments_lines :
    (parseDbc plain (commented "speed").text).upTo Database.bare =
      (parseDbc plain (commented "speed\nof the axle").text).upTo Database.bare :=
  parseDbc_comments plain (sameBut_commented _ _) (by unfold Quiet; decide +kernel)
    (by unfold Quiet; decide +kernel)

/-- How many messages were read. -/
def messageCount (r : Run (Database F)) : ℕ :=
  match r with
  | some (.ok db) => db.messages.length
  | _ => 0

/-- A comment with a line that declares a message adds it. -/
theorem comment_adds_message :
    SameBut (commented "speed") (commented "speed\nBO_ 2 B: 8 X\n") ∧
      (parseDbc plain (commented "speed").text).upTo Database.bare ≠
        (parseDbc plain (commented "speed\nBO_ 2 B: 8 X\n").text).upTo Database.bare := by
  refine ⟨sameBut_commented _ _, fun h => ?_⟩
  have hcount := congrArg messageCount h
  have hne : messageCount ((parseDbc plain (commented "speed").text).upTo Database.bare) ≠
      messageCount ((parseDbc plain (commented "speed\nBO_ 2 B: 8 X\n").text).upTo Database.bare) := by
    decide +kernel
  exact hne hcount

end BloblyEmb.Candb.Dbc
