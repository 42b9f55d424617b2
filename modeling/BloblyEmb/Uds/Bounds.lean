import BloblyEmb.Uds.Lockout

/-!
# The bounds of a response

Every answer of the server stays below the response capacity. `Fills` says that some stores write
exactly the first bytes of the buffer; the answers do, but for one kind: the records of a trouble
code go straight into the response, and a record that no longer fits refuses the request behind
the bytes already stored. The passes that size a response agree with those that write it.
-/
namespace BloblyEmb.Uds.Application

variable {ε : Type} {h : Hooks ε} {cfg : Config}

/-! ## Stores -/

/-- The stores write the bytes below `n`, and no others. -/
structure Fills (stores : List (ℕ × UInt8)) (n : ℕ) : Prop where
  below : ∀ st ∈ stores, st.1 < n
  all : ∀ i < n, ∃ b, (i, b) ∈ stores

theorem mem_place {o : ℕ} {bytes : List UInt8} {st : ℕ × UInt8} (hst : st ∈ place o bytes) :
    o ≤ st.1 ∧ st.1 < o + bytes.length := by
  induction bytes generalizing o with
  | nil => simp [place] at hst
  | cons b bs ih =>
    simp only [place, List.mem_cons] at hst
    rw [List.length_cons]
    rcases hst with rfl | hst
    · simp
    · obtain ⟨hlow, hhigh⟩ := ih hst
      omega

theorem exists_mem_place {o i : ℕ} {bytes : List UInt8} (hlow : o ≤ i)
    (hhigh : i < o + bytes.length) : ∃ b, (i, b) ∈ place o bytes := by
  induction bytes generalizing o with
  | nil =>
    rw [List.length_nil] at hhigh
    omega
  | cons b bs ih =>
    rw [List.length_cons] at hhigh
    by_cases heq : i = o
    · exact ⟨b, by simp [place, heq]⟩
    · obtain ⟨b', hb'⟩ := ih (o := o + 1) (by omega) (by omega)
      exact ⟨b', List.mem_cons_of_mem _ hb'⟩

namespace Fills
variable {stores : List (ℕ × UInt8)} {n : ℕ}

theorem nil : Fills [] 0 := ⟨nofun, fun i hi => absurd hi (Nat.not_lt_zero i)⟩

/-- Bytes placed behind what is filled. -/
theorem append (hf : Fills stores n) (bytes : List UInt8) :
    Fills (stores ++ place n bytes) (n + bytes.length) where
  below st hst := by
    rcases List.mem_append.mp hst with hst | hst
    · have := hf.below st hst
      omega
    · exact (mem_place hst).2
  all i hi := by
    by_cases hlt : i < n
    · obtain ⟨b, hb⟩ := hf.all i hlt
      exact ⟨b, List.mem_append_left _ hb⟩
    · obtain ⟨b, hb⟩ := exists_mem_place (Nat.not_lt.mp hlt) hi
      exact ⟨b, List.mem_append_right _ hb⟩

theorem of_place (bytes : List UInt8) : Fills (place 0 bytes) bytes.length := by
  simpa using nil.append bytes

end Fills

/-! ## Answers -/

/-- The answer is all that was stored, within the capacity. -/
def Whole (cap : ℕ) (r : Reply) : Prop := Fills r.stores r.len ∧ r.len ≤ cap

/-- A record that no longer fits refuses the request behind some stores within the capacity. -/
def CutShort (cap : ℕ) (r : Reply) : Prop :=
  r.len = 3 ∧ (∀ st ∈ r.stores, st.1 < cap) ∧
    ∃ before, r.stores = before ++ place 0 (Uds.negative 0x19 nrcResponseTooLong)

section Answers
variable {cap : ℕ}

theorem whole_mk {stores : List (ℕ × UInt8)} {len : ℕ} (hf : Fills stores len) (hle : len ≤ cap) :
    Whole cap { stores := stores, len := len } := ⟨hf, hle⟩

theorem whole_silent : Whole cap .silent := ⟨.nil, Nat.zero_le cap⟩

theorem whole_say {bytes : List UInt8} (hle : bytes.length ≤ cap) : Whole cap (.say bytes) :=
  ⟨.of_place bytes, hle⟩

theorem whole_negative (hcap : 6 ≤ cap) (sid nrc : UInt8) : Whole cap (.negative sid nrc) := by
  refine whole_say ?_
  simp only [Uds.negative, List.length_cons, List.length_nil]
  omega

theorem whole_suppressible (sub : UInt8) {bytes : List UInt8} (hle : bytes.length ≤ cap) :
    Whole cap (.suppressible sub bytes) := by
  simp only [Reply.suppressible]
  split
  · exact whole_silent
  · exact whole_say hle

theorem Whole.calling {r : Reply} (hr : Whole cap r) (c : HookCall) : Whole cap (r.calling c) := hr

theorem CutShort.calling {r : Reply} (hr : CutShort cap r) (c : HookCall) :
    CutShort cap (r.calling c) := hr

/-- A refusal behind stores within the capacity. -/
theorem cutShort_behind {stores : List (ℕ × UInt8)} (hcap : 6 ≤ cap)
    (hstores : ∀ st ∈ stores, st.1 < cap) :
    CutShort cap ((Reply.negative 0x19 nrcResponseTooLong).behind stores) := by
  refine ⟨rfl, fun st hst => ?_, stores, rfl⟩
  rcases List.mem_append.mp hst with hst | hst
  · exact hstores st hst
  · have := (mem_place hst).2
    simp only [Uds.negative, List.length_cons, List.length_nil] at this
    omega

end Answers

namespace Server

/-! ## Sizing and writing -/

@[simp] theorem length_idBytes (id : UInt16) : (idBytes id).length = 2 := rfl

/-- What the sizing pass counts for an identifier is the length of its record. -/
theorem length_didRecord {s : Server ε} {id : UInt16} {n : ℕ} (hsize : s.didSize id = .ok n) :
    (s.didRecord id).length = n := by
  simp only [didSize] at hsize
  simp only [didRecord]
  by_cases hserved : s.servedDidLen id > 0
  · rw [if_pos hserved] at hsize ⊢
    obtain rfl := Except.ok.inj hsize
    have hone : s.servedDidLen id = 1 := by
      simp only [servedDidLen] at hserved ⊢
      split at hserved
      · rw [if_pos ‹_›]
      · omega
    simp [hone]
  · rw [if_neg hserved] at hsize ⊢
    cases hfind : s.findDid id with
    | none =>
      simp only [hfind] at hsize ⊢
      obtain rfl := Except.ok.inj hsize
      rfl
    | some d =>
      simp only [hfind] at hsize ⊢
      by_cases hmask : inMask d.readSessions s.session = true
      · simp only [hmask, Bool.not_true, Bool.false_eq_true, if_false] at hsize ⊢
        split at hsize
        · exact nomatch hsize
        · obtain rfl := Except.ok.inj hsize
          simp
      · have hno : inMask d.readSessions s.session = false := by simpa using hmask
        simp only [hno, Bool.not_false, if_true] at hsize ⊢
        obtain rfl := Except.ok.inj hsize
        rfl

/-- The writing pass of the identifiers ends where the sizing pass said. -/
theorem writeDids_snd {s : Server ε} {ids : List UInt16} {total answered : ℕ}
    (hsize : s.sizeDids ids = .ok (total, answered)) (o : ℕ) :
    (s.writeDids o ids).2 = o + total := by
  induction ids generalizing o total answered with
  | nil =>
    simp only [sizeDids, Except.ok.injEq, Prod.mk.injEq] at hsize
    obtain ⟨rfl, -⟩ := hsize
    rfl
  | cons id ids ih =>
    simp only [sizeDids] at hsize
    split at hsize
    · exact nomatch hsize
    rename_i n hid
    split at hsize
    · exact nomatch hsize
    rename_i total' answered' hids
    simp only [Except.ok.injEq, Prod.mk.injEq] at hsize
    obtain ⟨rfl, -⟩ := hsize
    simp only [writeDids]
    rw [ih hids, length_didRecord hid]
    omega

theorem fills_writeDids (s : Server ε) {stores : List (ℕ × UInt8)} {o : ℕ} (hf : Fills stores o)
    (ids : List UInt16) :
    Fills (stores ++ (s.writeDids o ids).1) (s.writeDids o ids).2 := by
  induction ids generalizing stores o with
  | nil => simpa [writeDids] using hf
  | cons id ids ih =>
    simp only [writeDids]
    rw [← List.append_assoc]
    exact ih (hf.append _)

/-- The writing pass of the trouble codes ends where their count said. -/
theorem writeDtcs_snd (hit : ℕ → Bool) (record : ℕ → List UInt8) (o : ℕ) (is : List ℕ) :
    (writeDtcs hit record o is).2 = o + 4 * is.countP hit := by
  induction is generalizing o with
  | nil => rfl
  | cons i is ih =>
    simp only [writeDtcs, List.countP_cons]
    split
    · rw [ih]
      omega
    · exact ih o

theorem fills_writeDtcs {hit : ℕ → Bool} {record : ℕ → List UInt8}
    (hrecord : ∀ i, (record i).length = 4) {stores : List (ℕ × UInt8)} {o : ℕ}
    (hf : Fills stores o) (is : List ℕ) :
    Fills (stores ++ (writeDtcs hit record o is).1) (writeDtcs hit record o is).2 := by
  induction is generalizing stores o with
  | nil => simpa [writeDtcs] using hf
  | cons i is ih =>
    simp only [writeDtcs]
    split
    · rw [← List.append_assoc]
      refine ih ?_
      have := hf.append (record i)
      rwa [hrecord] at this
    · exact ih hf

/-! ## The services -/

section Services
variable {cap : ℕ}

theorem whole_handOff (hcap : 6 ≤ cap) (s : Server ε) (req : List UInt8) (sub : UInt8) :
    Whole cap (s.handOff h req sub).2 := by
  have hanswer : Whole cap (.suppressible (req.getD 1 0) (Uds.Server.sessionAnswer sub)) :=
    whole_suppressible _ hcap
  simp only [handOff]
  split
  · exact whole_negative hcap _ _
  split
  · exact hanswer
  split
  · exact hanswer.calling _
  · exact (whole_negative hcap _ _).calling _

theorem whole_sessionControl (hcap : 6 ≤ cap) (s : Server ε) (req : List UInt8) :
    Whole cap (s.sessionControl h cfg req).2 := by
  simp only [sessionControl]
  split_ifs
  · exact whole_negative hcap _ _
  · exact whole_negative hcap _ _
  · exact whole_negative hcap _ _
  · exact whole_negative hcap _ _
  · exact whole_negative hcap _ _
  · exact whole_handOff hcap s req _
  · exact whole_suppressible _ hcap

theorem whole_ecuReset (hcap : 6 ≤ cap) (s : Server ε) (req : List UInt8) :
    Whole cap (s.ecuReset req).2 := by
  simp only [ecuReset]
  split_ifs
  · exact whole_negative hcap _ _
  · exact whole_negative hcap _ _
  · exact whole_negative hcap _ _
  · exact whole_suppressible _ (Nat.le_trans (by decide : 2 ≤ 6) hcap)

theorem whole_communicationControl (hcap : 6 ≤ cap) (s : Server ε) (req : List UInt8) :
    Whole cap (s.communicationControl cfg req).2 := by
  simp only [communicationControl]
  split_ifs
  · exact whole_negative hcap _ _
  · exact whole_negative hcap _ _
  · exact whole_negative hcap _ _
  · exact whole_negative hcap _ _
  · exact whole_negative hcap _ _
  · exact whole_suppressible _ (Nat.le_trans (by decide : 2 ≤ 6) hcap)

theorem whole_testerPresent (hcap : 6 ≤ cap) (s : Server ε) (req : List UInt8) :
    Whole cap (s.testerPresent req).2 := by
  simp only [testerPresent]
  split_ifs
  · exact whole_negative hcap _ _
  · exact whole_negative hcap _ _
  · exact whole_negative hcap _ _
  · exact whole_suppressible _ (Nat.le_trans (by decide : 2 ≤ 6) hcap)

theorem whole_requestSeed (hcap : 6 ≤ cap) (ops : SecurityOps ε) (s : Server ε)
    (level sub : UInt8) : Whole cap (s.requestSeed ops level sub).2 := by
  simp only [requestSeed]
  split_ifs
  · exact whole_negative hcap _ _
  · exact whole_say hcap
  · exact (whole_negative hcap _ _).calling _
  · exact (whole_negative hcap _ _).calling _
  · refine (whole_say ?_).calling _
    rw [List.length_cons, List.length_cons, Vector.length_toList]
    exact hcap

theorem whole_sendKey (hcap : 6 ≤ cap) (ops : SecurityOps ε) (s : Server ε) (level : UInt8)
    (req : List UInt8) : Whole cap (s.sendKey ops cfg level req).2 := by
  simp only [sendKey]
  split_ifs
  · exact whole_negative hcap _ _
  · exact whole_negative hcap _ _
  · exact (whole_negative hcap _ _).calling _
  · exact (whole_negative hcap _ _).calling _
  · exact (whole_suppressible _ (Nat.le_trans (by decide : 2 ≤ 6) hcap)).calling _

theorem whole_securityAccess (hcap : 6 ≤ cap) (ops : SecurityOps ε) (s : Server ε)
    (req : List UInt8) : Whole cap (s.securityAccess ops cfg req).2 := by
  simp only [securityAccess]
  split_ifs
  · exact whole_negative hcap _ _
  · exact whole_negative hcap _ _
  · exact whole_requestSeed hcap ops s _ _
  · exact whole_sendKey hcap ops s _ req

theorem whole_readDid (s : Server ε) (hcap : 6 ≤ s.cap) (req : List UInt8) :
    Whole s.cap (s.readDid req).2 := by
  simp only [readDid]
  split
  · exact whole_negative hcap _ _
  split
  · exact whole_negative hcap _ _
  rename_i total answered hsize
  split
  · exact whole_negative hcap _ _
  split
  · exact whole_negative hcap _ _
  · rename_i hfit
    refine whole_mk (fills_writeDids s (.of_place [0x62]) _) ?_
    rw [writeDids_snd hsize]
    omega

theorem whole_writeDid (hcap : 6 ≤ cap) (s : Server ε) (req : List UInt8) :
    Whole cap (s.writeDid h req).2 := by
  have hanswer : Whole cap (.say [0x6E, req.getD 1 0, req.getD 2 0]) :=
    whole_say (Nat.le_trans (by decide : 3 ≤ 6) hcap)
  simp only [writeDid]
  split
  · exact whole_negative hcap _ _
  split
  · exact whole_negative hcap _ _
  split
  · exact whole_negative hcap _ _
  split
  · exact whole_negative hcap _ _
  split
  · exact whole_negative hcap _ _
  split
  · split
    · exact whole_negative hcap _ _
    split
    · exact (whole_negative hcap _ _).calling _
    · exact hanswer.calling _
  · exact hanswer

theorem whole_snapshotIds (mem : MemoryOps ε)
    (snapshot : ε → ℕ → Option ℕ → List UInt8 × ℤ) (s : Server ε) (hcap : 6 ≤ s.cap) :
    Whole s.cap (s.snapshotIds mem snapshot) := by
  simp only [snapshotIds]
  split
  · exact whole_negative hcap _ _
  · rename_i hfit
    refine whole_mk (fills_writeDtcs (fun _ => rfl) (.of_place [0x59, 0x03]) _) ?_
    rw [writeDtcs_snd]
    omega

theorem whole_dtcsByMask (mem : MemoryOps ε) (s : Server ε) (hcap : 6 ≤ s.cap) (sub : UInt8)
    (req : List UInt8) : Whole s.cap (s.dtcsByMask cfg mem sub req) := by
  simp only [dtcsByMask]
  generalize (if sub = 0x0A then 0xFF else req.getD 2 0 &&& cfg.avail) = mask
  split
  · exact whole_say hcap
  split
  · exact whole_negative hcap _ _
  · rename_i hfit
    refine whole_mk (fills_writeDtcs (fun _ => rfl) (.of_place [0x59, sub, cfg.avail]) _) ?_
    rw [writeDtcs_snd]
    omega

theorem whole_clearDtcs (hcap : 6 ≤ cap) (mem : MemoryOps ε) (s : Server ε) (req : List UInt8) :
    Whole cap (s.clearDtcs mem req).2 := by
  simp only [clearDtcs]
  split_ifs
  · exact whole_negative hcap _ _
  · exact (whole_negative hcap _ _).calling _
  · exact (whole_say (Nat.le_trans (by decide : 1 ≤ 6) hcap)).calling _

theorem whole_dtcSetting (hcap : 6 ≤ cap) (set : ε → Bool → ε) (s : Server ε) (req : List UInt8) :
    Whole cap (s.dtcSetting set req).2 := by
  simp only [dtcSetting]
  split_ifs
  · exact whole_negative hcap _ _
  · exact whole_negative hcap _ _
  · exact (whole_suppressible _ (Nat.le_trans (by decide : 2 ≤ 6) hcap)).calling _

end Services

/-! ## The records of one trouble code -/

/-- What the record hooks promise: they store within the capacity they are given, and a length
they return within it is the number of bytes they stored. -/
structure Honest (h : Hooks ε) : Prop where
  snapshot : ∀ snap ∈ h.snapshot, ∀ ctx i cap, (snap ctx i (some cap)).1.length ≤ cap ∧
    (0 ≤ (snap ctx i (some cap)).2 →
      ((snap ctx i (some cap)).1.length : ℤ) = (snap ctx i (some cap)).2)
  extended : ∀ ext ∈ h.extended, ∀ ctx i r cap, (ext ctx i r cap).1.length ≤ cap ∧
    (0 ≤ (ext ctx i r cap).2 → (ext ctx i r cap).2 ≤ cap →
      ((ext ctx i r cap).1.length : ℤ) = (ext ctx i r cap).2)

/-- The stores of a record behind its number. -/
theorem fills_record {stores : List (ℕ × UInt8)} {o : ℕ} (hf : Fills stores o) (r : UInt8)
    (bytes : List UInt8) :
    Fills (stores ++ place (o + 1) bytes ++ [(o, r)]) (o + 1 + bytes.length) := by
  have hall := (hf.append [r]).append bytes
  have hmem (st : ℕ × UInt8) : st ∈ stores ++ place (o + 1) bytes ++ [(o, r)] ↔
      st ∈ stores ++ place o [r] ++ place (o + [r].length) bytes := by
    simp only [List.mem_append, place, List.mem_singleton, List.length_singleton]
    tauto
  constructor
  · intro st hst
    exact hall.below st ((hmem st).mp hst)
  · intro i hi
    obtain ⟨b, hb⟩ := hall.all i hi
    exact ⟨b, (hmem _).mpr hb⟩

/-- Either the whole answer, or a refusal behind stores within the capacity. -/
def Bounded (cap : ℕ) (r : Reply) : Prop := Whole cap r ∨ CutShort cap r

theorem bounded_snapshotRecord (hh : Honest h) {snap : ε → ℕ → Option ℕ → List UInt8 × ℤ}
    (hsnap : snap ∈ h.snapshot) (s : Server ε) (hcap : 6 ≤ s.cap) (i : ℕ)
    {head : List (ℕ × UInt8)} (hhead : Fills head 6) :
    Bounded s.cap (s.snapshotRecord snap i head) := by
  have hbelow : ∀ st ∈ head, st.1 < s.cap := by
    intro st hst
    have := hhead.below st hst
    omega
  simp only [snapshotRecord]
  split
  · split
    · exact .inr (cutShort_behind hcap hbelow)
    · rename_i hpos hfit
      obtain ⟨hle, hlen⟩ := hh.snapshot snap hsnap s.ctx i (s.cap - 6 - 1)
      split
      · refine .inr (cutShort_behind hcap fun st hst => ?_)
        rcases List.mem_append.mp hst with hst | hst
        · rcases List.mem_append.mp hst with hst | hst
          · exact hbelow st hst
          · rw [List.mem_singleton.mp hst]
            omega
        · have := mem_place hst
          omega
      · rename_i hsame
        have hstored := hlen (by omega)
        refine .inl (whole_mk ?_ (by omega))
        have hall := (hhead.append [0x01]).append (snap s.ctx i (some (s.cap - 6 - 1))).1
        have hlen' : 6 + [(0x01 : UInt8)].length +
            (snap s.ctx i (some (s.cap - 6 - 1))).1.length =
            6 + 1 + ((snap s.ctx i none).2).toNat := by
          rw [List.length_singleton]
          omega
        rwa [hlen'] at hall
  · exact .inl ⟨hhead, hcap⟩

theorem bounded_extendedRecords (hh : Honest h) {ext : ε → ℕ → UInt8 → ℕ → List UInt8 × ℤ}
    (hext : ext ∈ h.extended) (s : Server ε) (hcap : 6 ≤ s.cap) (i : ℕ)
    {stores : List (ℕ × UInt8)} {o : ℕ} (hf : Fills stores o) (ho : o ≤ s.cap)
    (recs : List UInt8) : Bounded s.cap (s.extendedRecords ext i stores o recs) := by
  induction recs generalizing stores o with
  | nil => exact .inl ⟨hf, ho⟩
  | cons r rs ih =>
    obtain ⟨hle, hlen⟩ := hh.extended ext hext s.ctx i r (s.cap - o - 1)
    simp only [extendedRecords]
    split
    · refine .inr (cutShort_behind hcap fun st hst => ?_)
      rcases List.mem_append.mp hst with hst | hst
      · have := hf.below st hst
        omega
      · have := mem_place hst
        omega
    rename_i hfit
    have hstored := hlen (by omega) (by omega)
    split
    · rename_i hzero
      have hnone : (ext s.ctx i r (s.cap - o - 1)).1 = [] := by
        apply List.eq_nil_of_length_eq_zero
        omega
      rw [hnone]
      simp only [place, List.append_nil]
      exact ih hf ho
    · rename_i hpos
      have hrecord := fills_record hf r (ext s.ctx i r (s.cap - o - 1)).1
      have hlen' : o + 1 + (ext s.ctx i r (s.cap - o - 1)).1.length =
          o + 1 + ((ext s.ctx i r (s.cap - o - 1)).2).toNat := by omega
      rw [hlen'] at hrecord
      exact ih hrecord (by omega)

theorem bounded_dtcRecords (hh : Honest h) (mem : MemoryOps ε) (s : Server ε) (hcap : 6 ≤ s.cap)
    (sub : UInt8) (req : List UInt8) : Bounded s.cap (s.dtcRecords h cfg mem sub req) := by
  simp only [dtcRecords]
  split
  · exact .inl (whole_negative hcap _ _)
  split
  · exact .inl (whole_negative hcap _ _)
  split
  · split
    · exact .inl (whole_negative hcap _ _)
    · exact bounded_snapshotRecord hh ‹_› s hcap _ (.of_place _)
  · split
    · exact .inl (whole_negative hcap _ _)
    · exact bounded_extendedRecords hh ‹_› s hcap _ (.of_place [_, _, _, _, _, _]) hcap _

/-! ## Every request -/

/-- The service and sub-function that reads the records of one trouble code. -/
def readsRecords (req : List UInt8) : Bool :=
  req.head? == some 0x19 && (req.getD 1 0 == 0x04 || req.getD 1 0 == 0x06)

/-- An answer within the capacity; only the records of a trouble code may be cut short. -/
def Fits (cap : ℕ) (req : List UInt8) (r : Reply) : Prop :=
  Whole cap r ∨ CutShort cap r ∧ readsRecords req = true

theorem fits_readDtcs (hh : Honest h) (mem : MemoryOps ε) (s : Server ε) (hcap : 6 ≤ s.cap)
    {rest : List UInt8} : Fits s.cap (0x19 :: rest) (s.readDtcs h cfg mem (0x19 :: rest)).2 := by
  simp only [readDtcs]
  split
  · exact .inl (whole_negative hcap _ _)
  split
  · exact .inl (whole_negative hcap _ _)
  split
  · exact .inl (whole_negative hcap _ _)
  split
  · split
    · exact .inl (whole_negative hcap _ _)
    · exact .inl ((whole_snapshotIds mem _ s hcap).calling _)
  split
  · rename_i hsub
    rcases bounded_dtcRecords hh mem s hcap _ (0x19 :: rest) with hw | hc
    · exact .inl (hw.calling _)
    · refine .inr ⟨hc.calling _, ?_⟩
      simpa [readsRecords] using hsub
  · exact .inl ((whole_dtcsByMask mem s hcap _ _).calling _)

theorem fits_serve (hh : Honest h) (s : Server ε) (hcap : 6 ≤ s.cap) (sid : UInt8)
    (rest : List UInt8) : Fits s.cap (sid :: rest) (s.serve h cfg sid (sid :: rest)).2 := by
  refine serve_cases (P := fun sid f => Fits s.cap (sid :: rest) (f (sid :: rest)).2)
    h cfg s ?_ ?_ ?_ ?_ ?_ ?_ ?_ ?_ ?_ ?_ ?_ sid
  · exact .inl (whole_testerPresent hcap s _)
  · exact .inl (whole_sessionControl hcap s _)
  · exact .inl (whole_ecuReset hcap s _)
  · exact .inl (whole_readDid s hcap _)
  · exact fun ops _ => .inl (whole_securityAccess hcap ops s _)
  · exact fun mem _ => .inl (whole_clearDtcs hcap mem s _)
  · exact fun mem _ => fits_readDtcs hh mem s hcap
  · exact fun set _ => .inl (whole_dtcSetting hcap set s _)
  · exact .inl (whole_communicationControl hcap s _)
  · exact .inl (whole_writeDid hcap s _)
  · exact fun sid => .inl (whole_negative hcap _ _)

/-- The capacity is what `init` stores, or that of a caller without `init`. -/
def CapacityOk (s : Server ε) : Prop := s.respCap < 0 ∨ s.respCap = 0 ∨ minRespCap ≤ s.respCap

theorem capacityOk_init (h : Hooks ε) (s : Server ε) (respCap : ℤ) :
    (s.init h respCap).CapacityOk := by
  have hcap : (s.init h respCap).respCap = if respCap ≥ minRespCap then respCap else -1 := by
    simp only [init, resetState, restoreDtcSetting]
    split <;> rfl
  simp only [CapacityOk, hcap]
  split
  · exact .inr (.inr ‹_›)
  · exact .inl (by decide)

theorem cap_ge {s : Server ε} (hs : s.CapacityOk) (_ : ¬ s.respCap < 0) : 6 ≤ s.cap := by
  simp only [CapacityOk, minRespCap] at hs
  simp only [cap, legacyRespCap, maxDidData]
  split <;> omega

/-- Every answer is within the capacity. -/
theorem fits_handle (hh : Honest h) (s : Server ε) (hs : s.CapacityOk) (req : List UInt8) :
    Fits s.cap req (s.handle h cfg req).2 := by
  cases req with
  | nil => exact .inl whole_silent
  | cons sid rest =>
    simp only [handle, dispatch]
    split
    · exact .inl whole_silent
    rename_i hserved
    have hcap : 6 ≤ s.cap := cap_ge hs hserved
    split
    · exact .inl (whole_negative hcap _ _)
    split
    · exact .inl (whole_negative hcap _ _)
    split
    · exact .inl (whole_negative hcap _ _)
    split
    · exact .inl (whole_negative hcap _ _)
    · exact fits_serve hh s.stamped hcap sid rest

/-! ## The capacity stays -/

theorem respCap_enterSession (s : Server ε) (session : UInt8) :
    (s.enterSession h session).respCap = s.respCap := by
  simp only [enterSession, restoreDtcSetting]
  split
  · split <;> rfl
  · rfl

theorem respCap_handOff (s : Server ε) (req : List UInt8) (sub : UInt8) :
    (s.handOff h req sub).1.respCap = s.respCap := by
  simp only [handOff]
  split
  · rfl
  split
  · rfl
  · split <;> rfl

theorem respCap_sessionControl (s : Server ε) (req : List UInt8) :
    (s.sessionControl h cfg req).1.respCap = s.respCap := by
  simp only [sessionControl]
  repeat' (split; rfl)
  split
  · exact respCap_handOff s req _
  · exact respCap_enterSession s _

theorem respCap_securityAccess (ops : SecurityOps ε) (s : Server ε) (req : List UInt8) :
    (s.securityAccess ops cfg req).1.respCap = s.respCap := by
  simp only [securityAccess, requestSeed, sendKey]
  repeat' (split; rfl)
  split
  · repeat' (split; rfl)
    rfl
  · repeat' (split; rfl)
    split
    · split <;> rfl
    · rfl

theorem respCap_readDid (s : Server ε) (req : List UInt8) :
    (s.readDid req).1.respCap = s.respCap := by
  simp only [readDid]
  split
  · rfl
  split
  · rfl
  · repeat' (split; rfl)
    rfl

theorem respCap_writeDid (s : Server ε) (req : List UInt8) :
    (s.writeDid h req).1.respCap = s.respCap := by
  simp only [writeDid, storeDid]
  split
  · rfl
  split
  · rfl
  repeat' (split; rfl)
  split
  · split
    · rfl
    · split <;> rfl
  · rfl

theorem respCap_readDtcs (mem : MemoryOps ε) (s : Server ε) (req : List UInt8) :
    (s.readDtcs h cfg mem req).1.respCap = s.respCap := by
  simp only [readDtcs]
  repeat' (split; rfl)
  split
  · split <;> rfl
  · split <;> rfl

/-- No service changes the response capacity. -/
theorem respCap_serve (s : Server ε) (sid : UInt8) (req : List UInt8) :
    (s.serve h cfg sid req).1.respCap = s.respCap := by
  refine serve_cases (P := fun _ f => (f req).1.respCap = s.respCap)
    h cfg s ?_ ?_ ?_ ?_ ?_ ?_ ?_ ?_ ?_ ?_ ?_ sid
  · simp only [testerPresent]
    repeat' (split; rfl)
    rfl
  · exact respCap_sessionControl s req
  · simp only [ecuReset]
    repeat' (split; rfl)
    rfl
  · exact respCap_readDid s req
  · exact fun ops _ => respCap_securityAccess ops s req
  · intro mem _
    simp only [clearDtcs]
    split
    · rfl
    · split <;> rfl
  · exact fun mem _ => respCap_readDtcs mem s req
  · intro set _
    simp only [dtcSetting]
    repeat' (split; rfl)
    rfl
  · simp only [communicationControl]
    repeat' (split; rfl)
    rfl
  · exact respCap_writeDid s req
  · exact fun _ => rfl

theorem respCap_dispatch (s : Server ε) (req : List UInt8) :
    (s.dispatch h cfg req).1.respCap = s.respCap := by
  cases req with
  | nil => rfl
  | cons sid rest =>
    simp only [dispatch]
    repeat' (split; rfl)
    exact respCap_serve _ sid _

theorem respCap_handleFunctional (s : Server ε) (req : List UInt8) :
    (s.handleFunctional h cfg req).1.respCap = s.respCap := by
  simp only [handleFunctional]
  split
  · rfl
  · split <;> exact respCap_dispatch s req

end Server

/-- One trouble code with a snapshot of eight bytes. -/
def recordHooks : Hooks Unit where
  memory := some { count := fun _ => 1, entry := fun _ _ => 0x12345601, clear := fun ctx _ => (ctx, 0) }
  snapshot := some fun _ _ cap =>
    match cap with
    | none => ([], 8)
    | some cap => if cap < 8 then ([], -1) else (List.replicate 8 0xAB, 8)

theorem recordHooks_honest : Server.Honest recordHooks where
  snapshot snap hsnap ctx i cap := by
    obtain rfl := Option.some.inj hsnap
    dsimp only
    split
    · simp
    · simp
      omega
  extended ext hext := nomatch hext

end BloblyEmb.Uds.Application
