import BloblyEmb.Uds.Bounds

/-!
# Refused and suppressed requests

A negative answer leaves the server as it was, the S3 stamp apart and, for security access, the
exchange and the attempts; as long as a hook that refuses has changed nothing itself. A request
whose positive answer is suppressed does what the same request does without the suppress bit.
-/
namespace BloblyEmb.Uds.Application

variable {ε : Type} {h : Hooks ε} {cfg : Config}

/-- A negative answer. -/
def Reply.Negative (r : Reply) : Prop := r.len = 3 ∧ r.byte 0 = some 0x7F

theorem Reply.not_negative_of_len {r : Reply} (hlen : r.len ≠ 3) : ¬r.Negative :=
  fun hn => hlen hn.1

theorem Reply.not_negative_suppressible (sub : UInt8) {bytes : List UInt8} (hlen : bytes.length ≠ 3) :
    ¬(Reply.suppressible sub bytes).Negative := by
  simp only [Reply.suppressible]
  split
  · exact not_negative_of_len (by decide)
  · exact not_negative_of_len hlen

/-- What the hooks that refuse promise: they have changed nothing; and no security hook changes
the DTC setting. -/
structure Hooks.Refusing (h : Hooks ε) (setting : ε → Bool) : Prop where
  seed : ∀ ops ∈ h.security, ∀ ctx, setting (ops.seed ctx).1 = setting ctx
  key : ∀ ops ∈ h.security, ∀ ctx level seed key, (ops.keyOk ctx level seed key).2 = false →
    setting (ops.keyOk ctx level seed key).1 = setting ctx
  clear : ∀ mem ∈ h.memory, ∀ ctx group, (mem.clear ctx group).2 ≠ 0 → (mem.clear ctx group).1 = ctx
  didWrite : ∀ write ∈ h.didWrite, ∀ ctx id bytes, (write ctx id bytes).2 ≠ 0 →
    (write ctx id bytes).1 = ctx

namespace Server

/-- What a refused request leaves: nothing is changed but, for security access, the exchange and
the attempts. -/
structure Leaves (setting : ε → Bool) (sid : UInt8) (s s' : Server ε) : Prop where
  other : sid ≠ 0x27 → s' = s
  exchange : ∃ ctx level seed failed delay, setting ctx = setting s.ctx ∧
    s' = { s with
      ctx := ctx, saLevel := level, saSeed := seed, saFailed := failed, saDelayUntil := delay }

theorem leaves_self (setting : ε → Bool) (sid : UInt8) (s : Server ε) : Leaves setting sid s s where
  other _ := rfl
  exchange := ⟨_, _, _, _, _, rfl, rfl⟩

/-! ## Refusals of the services -/

theorem refused_handOff (s : Server ε) (req : List UInt8) (sub : UInt8)
    (hn : (s.handOff h req sub).2.Negative) : (s.handOff h req sub).1 = s := by
  have hpositive : ¬(Reply.suppressible (req.getD 1 0) (Uds.Server.sessionAnswer sub)).Negative :=
    Reply.not_negative_suppressible _ (by simp [Uds.Server.sessionAnswer])
  simp only [handOff] at hn ⊢
  split at hn <;> rename_i helse
  · rw [if_pos helse]
  · rw [if_neg helse]
    cases hook : h.handoffOk with
    | none =>
      rw [hook] at hn
      exact absurd hn hpositive
    | some handoffOk =>
      simp only [hook] at hn ⊢
      split at hn
      · exact absurd hn hpositive
      · rename_i hno
        rw [if_neg hno]

theorem refused_sessionControl (s : Server ε) (req : List UInt8)
    (hn : (s.sessionControl h cfg req).2.Negative) : (s.sessionControl h cfg req).1 = s := by
  revert hn
  simp only [sessionControl]
  repeat' (split; exact fun _ => rfl)
  split
  · exact refused_handOff s req _
  · exact fun hn => absurd hn (Reply.not_negative_suppressible _ (by simp [Uds.Server.sessionAnswer]))

theorem refused_ecuReset (s : Server ε) (req : List UInt8) (hn : (s.ecuReset req).2.Negative) :
    (s.ecuReset req).1 = s := by
  revert hn
  simp only [ecuReset]
  repeat' (split; exact fun _ => rfl)
  exact fun hn => absurd hn (Reply.not_negative_suppressible _ (by simp))

theorem refused_communicationControl (s : Server ε) (req : List UInt8)
    (hn : (s.communicationControl cfg req).2.Negative) :
    (s.communicationControl cfg req).1 = s := by
  revert hn
  simp only [communicationControl]
  repeat' (split; exact fun _ => rfl)
  exact fun hn => absurd hn (Reply.not_negative_suppressible _ (by simp))

theorem same_testerPresent (s : Server ε) (req : List UInt8) : (s.testerPresent req).1 = s := by
  simp only [testerPresent]
  repeat' (split; rfl)
  rfl

theorem same_readDid (s : Server ε) (req : List UInt8) : (s.readDid req).1 = s := by
  simp only [readDid]
  split
  · rfl
  split
  · rfl
  · repeat' (split; rfl)
    rfl

theorem same_readDtcs (mem : MemoryOps ε) (s : Server ε) (req : List UInt8) :
    (s.readDtcs h cfg mem req).1 = s := by
  simp only [readDtcs]
  repeat' (split; rfl)
  split
  · split <;> rfl
  · split <;> rfl

theorem refused_securityAccess {setting : ε → Bool} {ops : SecurityOps ε}
    (hh : h.Refusing setting) (hops : ops ∈ h.security) (s : Server ε) (req : List UInt8)
    (hn : (s.securityAccess ops cfg req).2.Negative) :
    Leaves setting 0x27 s (s.securityAccess ops cfg req).1 := by
  have hself := leaves_self setting 0x27 s
  revert hn
  simp only [securityAccess]
  split
  · exact fun _ => hself
  split
  · exact fun _ => hself
  split
  · simp only [requestSeed]
    split
    · exact fun _ => hself
    split
    · exact fun hn => absurd hn (Reply.not_negative_of_len (by simp [Reply.say, seedLen]))
    split
    · exact fun _ => ⟨fun hne => absurd rfl hne, _, _, _, _, _, hh.seed ops hops s.ctx, rfl⟩
    split
    · exact fun _ => ⟨fun hne => absurd rfl hne, _, _, _, _, _, hh.seed ops hops s.ctx, rfl⟩
    · refine fun hn => absurd hn (Reply.not_negative_of_len ?_)
      simp only [Reply.say, Reply.calling, List.length_cons, Vector.length_toList]
      decide
  · simp only [sendKey]
    split
    · exact fun _ => hself
    split
    · exact fun _ => hself
    split
    · rename_i hwrong
      have hctx := hh.key ops hops s.ctx (((req.getD 1 0 &&& 0x7F) + 1) / 2) s.saSeed.toList
        (req.drop 2) (by simpa using hwrong)
      split
      · exact fun _ => ⟨fun hne => absurd rfl hne, _, _, _, _, _, hctx, rfl⟩
      · exact fun _ => ⟨fun hne => absurd rfl hne, _, _, _, _, _, hctx, rfl⟩
    · exact fun hn => absurd hn (Reply.not_negative_suppressible _ (by simp))

theorem refused_writeDid {setting : ε → Bool} (hh : h.Refusing setting) (s : Server ε)
    (req : List UInt8) (hn : (s.writeDid h req).2.Negative) : (s.writeDid h req).1 = s := by
  have hpositive : ¬(Reply.say [0x6E, req.getD 1 0, req.getD 2 0]).Negative := by
    rintro ⟨-, hb⟩
    simp [Reply.say, Reply.byte, place] at hb
  revert hn
  simp only [writeDid]
  split
  · exact fun _ => rfl
  split
  · exact fun _ => rfl
  repeat' (split; exact fun _ => rfl)
  split
  · cases hook : h.didWrite with
    | none => exact fun _ => rfl
    | some write =>
      dsimp only
      split
      · rename_i hno
        intro _
        dsimp only
        rw [hh.didWrite write hook _ _ _ hno]
      · exact fun hn => absurd hn hpositive
  · exact fun hn => absurd hn hpositive

theorem refused_clearDtcs {setting : ε → Bool} (hh : h.Refusing setting) {mem : MemoryOps ε}
    (hmem : mem ∈ h.memory) (s : Server ε) (req : List UInt8)
    (hn : (s.clearDtcs mem req).2.Negative) : (s.clearDtcs mem req).1 = s := by
  revert hn
  simp only [clearDtcs]
  split
  · exact fun _ => rfl
  split
  · rename_i hno
    intro _
    dsimp only
    rw [hh.clear mem hmem _ _ hno]
  · exact fun hn => absurd hn (Reply.not_negative_of_len (by simp [Reply.say, Reply.calling]))

theorem refused_dtcSetting (set : ε → Bool → ε) (s : Server ε) (req : List UInt8)
    (hn : (s.dtcSetting set req).2.Negative) : (s.dtcSetting set req).1 = s := by
  revert hn
  simp only [dtcSetting]
  split
  · exact fun _ => rfl
  split
  · exact fun _ => rfl
  · exact fun hn => absurd hn (Reply.not_negative_suppressible _ (by simp))

theorem refused_serve {setting : ε → Bool} (hh : h.Refusing setting) (s : Server ε) (sid : UInt8)
    (req : List UInt8) (hn : (s.serve h cfg sid req).2.Negative) :
    Leaves setting sid s (s.serve h cfg sid req).1 := by
  have of_same {sid : UInt8} {s' : Server ε} (heq : s' = s) : Leaves setting sid s s' :=
    heq ▸ leaves_self setting sid s
  revert hn req
  refine serve_cases (P := fun sid f => ∀ req, (f req).2.Negative → Leaves setting sid s (f req).1)
    h cfg s ?_ ?_ ?_ ?_ ?_ ?_ ?_ ?_ ?_ ?_ ?_ sid
  · exact fun req _ => of_same (same_testerPresent s req)
  · exact fun req hn => of_same (refused_sessionControl s req hn)
  · exact fun req hn => of_same (refused_ecuReset s req hn)
  · exact fun req _ => of_same (same_readDid s req)
  · exact fun ops hops req hn => refused_securityAccess hh hops s req hn
  · exact fun mem hmem req hn => of_same (refused_clearDtcs hh hmem s req hn)
  · exact fun mem _ req _ => of_same (same_readDtcs mem s req)
  · exact fun set _ req hn => of_same (refused_dtcSetting set s req hn)
  · exact fun req hn => of_same (refused_communicationControl s req hn)
  · exact fun req hn => of_same (refused_writeDid hh s req hn)
  · exact fun _ _ _ => leaves_self setting _ s

/-- The service identifier of a request. -/
def sidOf (req : List UInt8) : UInt8 := req.getD 0 0

theorem refused_dispatch {setting : ε → Bool} (hh : h.Refusing setting) (s : Server ε)
    (req : List UInt8) (hn : (s.dispatch h cfg req).2.Negative) :
    Leaves setting (sidOf req) s.stamped (s.dispatch h cfg req).1 := by
  cases req with
  | nil => exact absurd hn (Reply.not_negative_of_len (show (0 : ℕ) ≠ 3 by decide))
  | cons sid rest =>
    have hself := leaves_self setting sid s.stamped
    revert hn
    simp only [dispatch]
    split
    · exact fun hn => absurd hn (Reply.not_negative_of_len (show (0 : ℕ) ≠ 3 by decide))
    split
    · exact fun _ => hself
    split
    · exact fun _ => hself
    split
    · exact fun _ => hself
    split
    · exact fun _ => hself
    · exact fun hn => refused_serve hh s.stamped sid (sid :: rest) hn

/-! ## Suppressed answers -/

/-- The request without its suppress bit. -/
def unsuppressed : List UInt8 → List UInt8
  | sid :: sub :: rest => sid :: (sub &&& 0x7F) :: rest
  | req => req

/-- The service answers without words when it is asked to. -/
def suppressible (sid : UInt8) : Bool :=
  sid == 0x10 || sid == 0x11 || sid == 0x27 || sid == 0x28 || sid == 0x3E || sid == 0x85

theorem and_7F_idem (sub : UInt8) : sub &&& 0x7F &&& 0x7F = sub &&& 0x7F := by
  rw [UInt8.and_assoc]
  rfl

/-- Two requests do the same: they leave the same state and call the same hooks. -/
def Alike (x y : Server ε × Reply) : Prop := x.1 = y.1 ∧ x.2.calls = y.2.calls

theorem alike_refl (x : Server ε × Reply) : Alike x x := ⟨rfl, rfl⟩

theorem alike_suppressible (s : Server ε) (sub sub' : UInt8) (bytes bytes' : List UInt8) :
    Alike (s, Reply.suppressible sub bytes) (s, Reply.suppressible sub' bytes') := by
  refine ⟨rfl, ?_⟩
  simp only [Reply.suppressible]
  split <;> split <;> rfl

theorem alike_calling {s s' : Server ε} {r r' : Reply} (ha : Alike (s, r) (s', r')) (c : HookCall) :
    Alike (s, r.calling c) (s', r'.calling c) :=
  ⟨ha.1, congrArg (c :: ·) ha.2⟩

section Unsuppressed
variable (s : Server ε) (sid sub : UInt8) (rest : List UInt8)

theorem alike_sessionControl :
    Alike (s.sessionControl h cfg (sid :: (sub &&& 0x7F) :: rest))
      (s.sessionControl h cfg (sid :: sub :: rest)) := by
  simp only [sessionControl, handOff, List.length_cons, List.getD_cons_succ, List.getD_cons_zero,
    and_7F_idem]
  repeat' (split; exact alike_refl _)
  split
  · split
    · exact alike_refl _
    split
    · exact alike_suppressible _ _ _ _ _
    · split
      · exact alike_calling (alike_suppressible _ _ _ _ _) _
      · exact alike_refl _
  · exact alike_suppressible _ _ _ _ _

theorem alike_ecuReset :
    Alike (s.ecuReset (sid :: (sub &&& 0x7F) :: rest)) (s.ecuReset (sid :: sub :: rest)) := by
  simp only [ecuReset, List.length_cons, List.getD_cons_succ, List.getD_cons_zero, and_7F_idem]
  repeat' (split; exact alike_refl _)
  exact alike_suppressible _ _ _ _ _

theorem alike_communicationControl :
    Alike (s.communicationControl cfg (sid :: (sub &&& 0x7F) :: rest))
      (s.communicationControl cfg (sid :: sub :: rest)) := by
  simp only [communicationControl, List.length_cons, List.getD_cons_succ, List.getD_cons_zero,
    and_7F_idem]
  repeat' (split; exact alike_refl _)
  exact alike_suppressible _ _ _ _ _

theorem alike_testerPresent :
    Alike (s.testerPresent (sid :: (sub &&& 0x7F) :: rest)) (s.testerPresent (sid :: sub :: rest)) := by
  simp only [testerPresent, List.length_cons, List.getD_cons_succ, List.getD_cons_zero, and_7F_idem]
  repeat' (split; exact alike_refl _)
  exact alike_suppressible _ _ _ _ _

theorem alike_securityAccess (ops : SecurityOps ε) :
    Alike (s.securityAccess ops cfg (sid :: (sub &&& 0x7F) :: rest))
      (s.securityAccess ops cfg (sid :: sub :: rest)) := by
  simp only [securityAccess, sendKey, List.length_cons, List.getD_cons_succ, List.getD_cons_zero,
    List.drop_succ_cons, and_7F_idem]
  repeat' (split; exact alike_refl _)
  exact alike_calling (alike_suppressible _ _ _ _ _) _

theorem alike_dtcSetting (set : ε → Bool → ε) :
    Alike (s.dtcSetting set (sid :: (sub &&& 0x7F) :: rest))
      (s.dtcSetting set (sid :: sub :: rest)) := by
  simp only [dtcSetting, List.length_cons, List.getD_cons_succ, List.getD_cons_zero, and_7F_idem]
  repeat' (split; exact alike_refl _)
  exact alike_calling (alike_suppressible _ _ _ _ _) _

/-- What a service does depends on the sub-function without its suppress bit. -/
theorem alike_serve (hsid : suppressible sid = true) :
    Alike (s.serve h cfg sid (sid :: (sub &&& 0x7F) :: rest))
      (s.serve h cfg sid (sid :: sub :: rest)) := by
  revert hsid
  refine serve_cases (P := fun sid f => suppressible sid = true →
      Alike (f (sid :: (sub &&& 0x7F) :: rest)) (f (sid :: sub :: rest)))
    h cfg s ?_ ?_ ?_ ?_ ?_ ?_ ?_ ?_ ?_ ?_ ?_ sid
  · exact fun _ => alike_testerPresent s _ sub rest
  · exact fun _ => alike_sessionControl s _ sub rest
  · exact fun _ => alike_ecuReset s _ sub rest
  · nofun
  · exact fun ops _ _ => alike_securityAccess s _ sub rest ops
  · nofun
  · nofun
  · exact fun set _ _ => alike_dtcSetting s _ sub rest set
  · exact fun _ => alike_communicationControl s _ sub rest
  · nofun
  · exact fun _ _ => alike_refl _

theorem alike_dispatch (hsid : suppressible sid = true) :
    Alike (s.dispatch h cfg (sid :: (sub &&& 0x7F) :: rest))
      (s.dispatch h cfg (sid :: sub :: rest)) := by
  simp only [dispatch]
  repeat' (split; exact alike_refl _)
  exact alike_serve s.stamped sid sub rest hsid

end Unsuppressed

/-! ## The other services answer with words -/

theorem len_negative (sid nrc : UInt8) : 0 < (Reply.negative sid nrc).len := by
  simp [Reply.negative, Reply.say, Uds.negative]

theorem le_writeDids (s : Server ε) (o : ℕ) (ids : List UInt16) : o ≤ (s.writeDids o ids).2 := by
  induction ids generalizing o with
  | nil => exact Nat.le_refl o
  | cons id ids ih => exact Nat.le_trans (Nat.le_add_right _ _) (ih _)

theorem le_writeDtcs (hit : ℕ → Bool) (record : ℕ → List UInt8) (o : ℕ) (is : List ℕ) :
    o ≤ (writeDtcs hit record o is).2 := by
  rw [writeDtcs_snd]
  omega

theorem len_extendedRecords (extended : ε → ℕ → UInt8 → ℕ → List UInt8 × ℤ) (s : Server ε) (i : ℕ)
    (stores : List (ℕ × UInt8)) {o : ℕ} (ho : 0 < o) (rs : List UInt8) :
    0 < (s.extendedRecords extended i stores o rs).len := by
  induction rs generalizing stores o with
  | nil => exact ho
  | cons r rs ih =>
    simp only [extendedRecords]
    split
    · exact len_negative _ _
    split
    · exact ih _ ho
    · exact ih _ (by omega)

theorem len_dtcRecords (mem : MemoryOps ε) (s : Server ε) (sub : UInt8) (req : List UInt8) :
    0 < (s.dtcRecords h cfg mem sub req).len := by
  simp only [dtcRecords]
  split
  · exact len_negative _ _
  split
  · exact len_negative _ _
  split
  · split
    · exact len_negative _ _
    · simp only [snapshotRecord]
      split
      · split
        · exact len_negative _ _
        · split
          · exact len_negative _ _
          · dsimp only
            omega
      · dsimp only
        omega
  · split
    · exact len_negative _ _
    · exact len_extendedRecords _ _ _ _ (by omega) _

theorem len_readDtcs (mem : MemoryOps ε) (s : Server ε) (req : List UInt8) :
    0 < (s.readDtcs h cfg mem req).2.len := by
  simp only [readDtcs]
  repeat' (split; exact len_negative _ _)
  split
  · split
    · exact len_negative _ _
    · simp only [snapshotIds, Reply.calling]
      split
      · exact len_negative _ _
      · exact Nat.lt_of_lt_of_le (by omega) (le_writeDtcs _ _ 2 _)
  split
  · exact len_dtcRecords mem s _ req
  · simp only [dtcsByMask, Reply.calling]
    generalize (if req.getD 1 0 = 0x0A then (0xFF : UInt8) else req.getD 2 0 &&& cfg.avail) = mask
    split
    · exact Nat.zero_lt_succ _
    split
    · exact len_negative _ _
    · exact Nat.lt_of_lt_of_le (by omega) (le_writeDtcs _ _ 3 _)

theorem len_readDid (s : Server ε) (req : List UInt8) : 0 < (s.readDid req).2.len := by
  simp only [readDid]
  split
  · exact len_negative _ _
  split
  · exact len_negative _ _
  · repeat' (split; exact len_negative _ _)
    exact Nat.lt_of_lt_of_le (by omega) (le_writeDids s 1 _)

theorem len_writeDid (s : Server ε) (req : List UInt8) : 0 < (s.writeDid h req).2.len := by
  simp only [writeDid]
  split
  · exact len_negative _ _
  split
  · exact len_negative _ _
  repeat' (split; exact len_negative _ _)
  split
  · split
    · exact len_negative _ _
    · split
      · exact len_negative _ _
      · exact Nat.zero_lt_succ _
  · exact Nat.zero_lt_succ _

theorem len_clearDtcs (mem : MemoryOps ε) (s : Server ε) (req : List UInt8) :
    0 < (s.clearDtcs mem req).2.len := by
  simp only [clearDtcs]
  split
  · exact len_negative _ _
  split
  · exact len_negative _ _
  · exact Nat.zero_lt_succ _

theorem len_serve (s : Server ε) {sid : UInt8} (hsid : suppressible sid = false)
    (req : List UInt8) : 0 < (s.serve h cfg sid req).2.len := by
  revert hsid
  refine serve_cases (P := fun sid f => suppressible sid = false → 0 < (f req).2.len)
    h cfg s ?_ ?_ ?_ ?_ ?_ ?_ ?_ ?_ ?_ ?_ ?_ sid
  · nofun
  · nofun
  · nofun
  · exact fun _ => len_readDid s req
  · nofun
  · exact fun mem _ _ => len_clearDtcs mem s req
  · exact fun mem _ _ => len_readDtcs mem s req
  · nofun
  · nofun
  · exact fun _ => len_writeDid s req
  · exact fun _ _ => len_negative _ _

/-- A request without an answer does what it does without the suppress bit. -/
theorem alike_of_silent (s : Server ε) (req : List UInt8)
    (hsilent : (s.dispatch h cfg req).2.len = 0) :
    Alike (s.dispatch h cfg (unsuppressed req)) (s.dispatch h cfg req) := by
  match req with
  | [] => exact alike_refl _
  | [_] => exact alike_refl _
  | sid :: sub :: rest =>
    cases hsid : suppressible sid with
    | true => exact alike_dispatch s sid sub rest hsid
    | false =>
      revert hsilent
      simp only [unsuppressed, dispatch]
      repeat' (split; exact fun _ => alike_refl _)
      exact fun hsilent => absurd hsilent (Nat.ne_of_gt (len_serve _ hsid _))

end Server

open BloblyEmb.Uds.Application.Server in
/-- For every state and request, as long as a hook that refuses has changed nothing itself: behind a
negative answer the server is as before but for the S3 stamp and, for security access, the exchange
and the attempts; the DTC setting too. And a request without an answer leaves the state, and calls
the hooks, of the same request without its suppress bit. -/
theorem refused_and_suppressed (h : Hooks ε) (cfg : Config) (setting : ε → Bool)
    (hh : h.Refusing setting) (s : Server ε) (req : List UInt8) :
    ((s.handle h cfg req).2.Negative →
        Leaves setting (sidOf req) s.stamped (s.handle h cfg req).1) ∧
      ((s.handleFunctional h cfg req).2.Negative →
        Leaves setting (sidOf req) s.stamped (s.handleFunctional h cfg req).1) ∧
      ((s.handle h cfg req).2.len = 0 →
        Alike (s.handle h cfg (unsuppressed req)) (s.handle h cfg req) ∧
          Alike (s.handleFunctional h cfg (unsuppressed req)) (s.handleFunctional h cfg req)) := by
  refine ⟨refused_dispatch hh s req, ?_, fun hsilent => ⟨alike_of_silent s req hsilent, ?_⟩⟩
  · simp only [handleFunctional]
    split
    · exact fun hn => absurd hn (Reply.not_negative_of_len (show (0 : ℕ) ≠ 3 by decide))
    · split
      · exact fun hn => absurd hn (Reply.not_negative_of_len (show (0 : ℕ) ≠ 3 by decide))
      · exact refused_dispatch hh s req
  · have ha := alike_of_silent s req hsilent
    have hhead : (unsuppressed req).head? = req.head? := by
      cases req with
      | nil => rfl
      | cons a l =>
        cases l with
        | nil => rfl
        | cons b l => rfl
    simp only [handleFunctional]
    rw [hhead]
    split
    · exact alike_refl _
    · have hcut : ∀ x : Server ε × Reply, Alike (if x.2.len = 3 ∧ x.2.byte 0 = some 0x7F ∧
          ∃ nrc ∈ x.2.byte 2, withheld nrc = true then (x.1, { x.2 with len := 0 })
          else (x.1, x.2)) x := by
        intro x
        split <;> exact alike_refl _
      exact ⟨(hcut _).1.trans (ha.1.trans (hcut _).1.symm),
        (hcut _).2.trans (ha.2.trans (hcut _).2.symm)⟩

/-- A node that serves the reset and wires no hook. -/
def resetNode : Config where
  servesReset := true

/-- Its server before any request. -/
def unasked : Server Unit := { ctx := () }

open BloblyEmb.Uds.Application.Server in
/-- A reset of an unknown kind is refused, and a hard reset with the suppress bit is ordered without
an answer. -/
theorem refused_and_suppressed_reset :
    (unasked.handle {} resetNode [0x11, 0x02]).2.Negative ∧
      Leaves (fun _ => true) 0x11 unasked.stamped (unasked.handle {} resetNode [0x11, 0x02]).1 ∧
      (unasked.handle {} resetNode [0x11, 0x81]).1.resetReq = 0x01 ∧
      Alike (unasked.handle {} resetNode [0x11, 0x01]) (unasked.handle {} resetNode [0x11, 0x81]) := by
  have hh : Hooks.Refusing ({} : Hooks Unit) fun _ => true :=
    ⟨nofun, nofun, nofun, nofun⟩
  have hn : (unasked.handle {} resetNode [0x11, 0x02]).2.Negative := ⟨by decide, by decide⟩
  refine ⟨hn, (refused_and_suppressed {} resetNode _ hh unasked [0x11, 0x02]).1 hn, by decide, ?_⟩
  exact ((refused_and_suppressed {} resetNode _ hh unasked [0x11, 0x81]).2.2 (by decide)).1

end BloblyEmb.Uds.Application
