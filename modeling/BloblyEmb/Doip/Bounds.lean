import BloblyEmb.Doip.Server
import BloblyEmb.Uds.Bounds

/-!
# The bounds of a feed

What the answer to one message writes, and where: a text behind what is there, no longer than the
room that is set aside for one message, and nothing beyond that room. From it the passes of a feed
stay within the response buffer and the assembly buffer, and they end.
-/
namespace BloblyEmb.Doip
open Buffer

/-! ## Texts -/

@[simp] theorem length_bytes16 (a : UInt16) : (bytes16 a).length = 2 := rfl

@[simp] theorem length_header (ptype : UInt16) (plen : UInt32) : (header ptype plen).length = 8 := by
  simp [header]

@[simp] theorem length_frame (ptype : UInt16) (body : List UInt8) :
    (frame ptype body).length = 8 + body.length := by
  simp [frame]

/-- From `r` to `r'` a text is written, and stores stay within the room of one message. -/
structure Emits (cap : ℕ) (r r' : Room) (bytes : List UInt8) : Prop where
  len : r'.len = r.len + bytes.length
  text : prefixOf r'.cells r'.len = prefixOf r.cells r.len ++ bytes
  short : bytes.length ≤ diagRespAt + cap
  within : ∀ k, r.len + diagRespAt + cap ≤ k → r'.cells k = r.cells k

theorem Emits.nothing (cap : ℕ) (r : Room) : Emits cap r r [] := by
  constructor <;> simp

theorem Emits.put {cap : ℕ} (r : Room) {bytes : List UInt8}
    (hlen : bytes.length ≤ diagRespAt + cap) : Emits cap r (r.put bytes) bytes where
  len := rfl
  text := prefixOf_store r.cells r.len bytes
  short := hlen
  within k hk := store_of_ge r.cells bytes (by omega)

/-- A short text behind stores into the room of the response. -/
theorem Emits.put_fill {cap : ℕ} (r : Room) {stores : List (ℕ × UInt8)}
    (hin : ∀ st ∈ stores, st.1 < cap) {bytes : List UInt8} (hlen : bytes.length ≤ diagRespAt) :
    Emits cap r (Room.put ⟨fill r.cells (r.len + diagRespAt) stores, r.len⟩ bytes) bytes where
  len := rfl
  text := by
    refine (prefixOf_store _ r.len bytes).trans (congrArg (· ++ bytes) ?_)
    refine prefixOf_congr fun k hk => fill_of_forall_ne fun st hst => ?_
    omega
  short := by omega
  within k hk := by
    have hk' : r.len + bytes.length ≤ k := by omega
    refine (store_of_ge _ bytes hk').trans (fill_of_forall_ne fun st hst => ?_)
    have := hin st hst
    omega

/-! ## What the answering server promises -/

/-- The stores are within the room it is given, and a length within that room is stored whole. -/
def Answer.Kept (a : Answer) (cap : ℕ) : Prop :=
  (∀ st ∈ a.stores, st.1 < cap) ∧
    (0 ≤ a.len → a.len ≤ cap → ∀ i < a.len.toNat, ∃ st ∈ a.stores, st.1 = i)

/-- The owner's answering hook keeps to the room it is given. -/
def Serve.Honest {γ : Type} (w : Serve γ) : Prop :=
  ∀ hook ∈ w.answer, ∀ ctx req functional cap, (hook ctx req functional cap).2.Kept cap

/-- The bytes of a response. -/
def Answer.text (a : Answer) : List UInt8 := prefixOf (fill (fun _ => 0) 0 a.stores) a.len.toNat

/-- The acknowledgement and the response, behind the stores of the response. -/
theorem Emits.respond {cap : ℕ} (r : Room) {a : Answer} (hkept : a.Kept cap) (hpos : 0 ≤ a.len)
    (hcap : a.len ≤ cap) {ack hdr : List UInt8} (hlen : ack.length + hdr.length = diagRespAt) :
    Emits cap r
      { ((Room.put ⟨fill r.cells (r.len + diagRespAt) a.stores, r.len⟩ ack).put hdr) with
        len := ((Room.put ⟨fill r.cells (r.len + diagRespAt) a.stores, r.len⟩ ack).put hdr).len +
          a.len.toNat } (ack ++ hdr ++ a.text) where
  len := by
    simp only [Room.put, List.length_append, Answer.text, length_prefixOf]
    omega
  text := by
    have hfront : prefixOf (store (store (fill r.cells (r.len + diagRespAt) a.stores) r.len ack)
        (r.len + ack.length) hdr) (r.len + ack.length + hdr.length) =
          prefixOf r.cells r.len ++ ack ++ hdr := by
      rw [prefixOf_store, prefixOf_store]
      congr 2
      refine prefixOf_congr fun k hk => fill_of_forall_ne fun st hst => ?_
      omega
    simp only [Room.put]
    rw [prefixOf_add, hfront, List.append_assoc, List.append_assoc, List.append_assoc]
    congr 3
    refine prefixOf_congr fun k hk => ?_
    have hst := hkept.2 hpos hcap k hk
    rw [store_of_ge _ hdr (by omega), store_of_ge _ ack (by omega),
      show r.len + ack.length + hdr.length + k = r.len + diagRespAt + k by omega,
      fill_of_mem hst r.cells (fun _ => 0) (r.len + diagRespAt) 0, Nat.zero_add]
  short := by
    simp only [List.length_append, Answer.text, length_prefixOf]
    omega
  within k hk := by
    have hk' : r.len + ack.length + hdr.length ≤ k := by omega
    have hk'' : r.len + ack.length ≤ k := by omega
    refine (store_of_ge _ hdr hk').trans ?_
    refine (store_of_ge _ ack hk'').trans (fill_of_forall_ne fun st hst => ?_)
    have := hkept.1 st hst
    omega

namespace Server
variable {γ ε : Type} {w : Serve γ} {h : Uds.Application.Hooks ε} {c : Uds.Application.Config}
open Uds.Application (Whole CutShort)

/-! ## The answering server -/

/-- The embedded server's answers. -/
theorem kept_reply {cap : ℕ} {r : Uds.Application.Reply} (hr : Whole cap r ∨ CutShort cap r) :
    Answer.Kept ⟨r.stores, r.len⟩ cap := by
  rcases hr with ⟨hfills, hle⟩ | ⟨hlen, hin, before, hstores⟩
  · refine ⟨fun st hst => Nat.lt_of_lt_of_le (hfills.below st hst) hle, fun _ _ i hi => ?_⟩
    obtain ⟨b, hb⟩ := hfills.all i hi
    exact ⟨(i, b), hb, rfl⟩
  · refine ⟨hin, fun _ _ i hi => ?_⟩
    have hi' : i < 0 + (Uds.negative 0x19 Uds.nrcResponseTooLong).length := by
      simp only [Int.toNat_natCast, hlen] at hi
      simpa [Uds.negative] using hi
    obtain ⟨b, hb⟩ := Uds.Application.exists_mem_place (Nat.zero_le i) hi'
    exact ⟨(i, b), by simp [hstores, hb], rfl⟩

/-- A functional request that is withheld keeps its stores, and has no length. -/
theorem kept_handleFunctional (hh : Uds.Application.Server.Honest h) (u : Uds.Application.Server ε)
    (hu : u.CapacityOk) (req : List UInt8) :
    Answer.Kept ⟨(u.handleFunctional h c req).2.stores, (u.handleFunctional h c req).2.len⟩
      u.cap := by
  have hfits : Uds.Application.Server.Fits u.cap req (u.handle h c req).2 :=
    u.fits_handle hh hu req
  have hkept := kept_reply (hfits.imp id And.left)
  simp only [Uds.Application.Server.handleFunctional]
  split
  · exact kept_reply (.inl Uds.Application.whole_silent)
  · split
    · refine ⟨hkept.1, fun _ _ i hi => ?_⟩
      cases hi
    · exact hkept

/-- What holds between the feeds of a connection. -/
structure Sound (s : Server γ ε) : Prop where
  /-- The bytes assembled are within the assembly buffer. -/
  fits : s.buf.length ≤ maxMsg
  /-- The embedded server was set up with a usable response capacity. -/
  capacity : s.uds.CapacityOk

theorem kept_ask (hserve : w.Honest) (hh : Uds.Application.Server.Honest h)
    {s : Server γ ε} (hs : s.uds.CapacityOk) (req : List UInt8) (functional : Bool) :
    (s.ask w h c req functional).2.1.Kept (s.udsCap w) := by
  simp only [ask]
  cases hook : w.answer with
  | some f => exact hserve f hook s.ctx req functional _
  | none =>
    simp only [udsCap, hook, Option.isSome_none, Bool.false_eq_true, if_false]
    cases functional with
    | true => exact kept_handleFunctional hh s.uds hs req
    | false => exact kept_reply ((s.uds.fits_handle hh hs req).imp id And.left)

/-- A request changes the context or the embedded server, whose capacity stays. -/
theorem ask_same (s : Server γ ε) (req : List UInt8) (functional : Bool) :
    ∃ ctx u, (s.ask w h c req functional).1 = { s with ctx := ctx, uds := u } ∧
      u.respCap = s.uds.respCap := by
  simp only [ask]
  cases w.answer with
  | some f => exact ⟨_, s.uds, rfl, rfl⟩
  | none =>
    refine ⟨s.ctx, _, rfl, ?_⟩
    cases functional with
    | true => exact Uds.Application.Server.respCap_handleFunctional s.uds req
    | false => exact Uds.Application.Server.respCap_dispatch s.uds req

/-! ## One message -/

/-- No message changes the room that is set aside for one, nor the bytes behind it. -/
structure Same (s s' : Server γ ε) : Prop where
  respCap : s'.uds.respCap = s.uds.respCap
  buf : s'.buf = s.buf

/-- What the answer to a message is: the state after it, a text and the calls, whatever the
response buffer holds. -/
def Answers (cap : ℕ) (f : Room → Server γ ε × Room × List Call) (s' : Server γ ε)
    (bytes : List UInt8) (calls : List Call) : Prop :=
  ∀ r, (f r).1 = s' ∧ (f r).2.2 = calls ∧ Emits cap r (f r).2.1 bytes

theorem answers_put {cap : ℕ} (s : Server γ ε) (calls : List Call) {bytes : List UInt8}
    (hlen : bytes.length ≤ diagRespAt + cap) :
    Answers cap (fun r => (s, r.put bytes, calls)) s bytes calls :=
  fun r => ⟨rfl, rfl, .put r hlen⟩

theorem answers_badLength (cap : ℕ) (s : Server γ ε) :
    Answers cap s.badLength { s with fatal := true } (genNack nackBadLength) [] :=
  fun r => ⟨rfl, rfl, .put r (by simp [genNack, diagRespAt, headerLen]; omega)⟩

theorem answers_activation (cap : ℕ) (s : Server γ ε) :
    ∃ s' bytes, Answers cap s.activation s' bytes [] ∧ s.Same s' := by
  unfold activation
  dsimp only
  by_cases hok : s.activationCode (be16 s.buf headerLen) (s.buf.getD (headerLen + 2) 0) = raOk
  · simp only [if_pos hok]
    refine ⟨_, _, answers_put _ _ ?_, ⟨rfl, rfl⟩⟩
    simp [diagRespAt, headerLen]
    omega
  · simp only [if_neg hok]
    refine ⟨_, _, answers_put _ _ ?_, ⟨rfl, rfl⟩⟩
    simp [diagRespAt, headerLen]
    omega

theorem length_diagNackFrom (source sa : UInt16) (code : UInt8) :
    (diagNackFrom source sa code).length = 13 := by
  simp [diagNackFrom]

theorem length_diagAck (ta sa : UInt16) : (diagAck ta sa).length = 13 := by
  simp [diagAck]

theorem answers_route (cap : ℕ) (s : Server γ ε) (ta : UInt16) (plen : ℕ) (sa : UInt16) :
    ∃ s' bytes calls, Answers cap (fun r => s.route w ta plen r sa) s' bytes calls ∧
      s.Same s' := by
  have hshort : ∀ n, n = 13 → n ≤ diagRespAt + cap := by
    intro n hn
    simp only [diagRespAt, headerLen]
    omega
  simp only [route]
  split
  · rename_i idx hook _ _
    by_cases hcode : (hook s.ctx idx (s.request plen) s.conn (s.ticket + 1)).2 ≠ 0
    · simp only [if_pos hcode]
      exact ⟨_, _, _, answers_put _ _ (hshort _ (length_diagNackFrom ..)), ⟨rfl, rfl⟩⟩
    · simp only [if_neg hcode]
      exact ⟨_, _, _, answers_put _ _ (hshort _ (length_diagAck ..)), ⟨rfl, rfl⟩⟩
  · exact ⟨_, _, _, answers_put _ _ (hshort _ (length_diagNackFrom ..)), ⟨rfl, rfl⟩⟩

theorem answers_diagnostic (hserve : w.Honest) (hh : Uds.Application.Server.Honest h)
    (s : Server γ ε) (hs : s.uds.CapacityOk) (plen : ℕ) :
    ∃ s' bytes calls, Answers (s.udsCap w) (s.diagnostic w h c plen) s' bytes calls ∧
      s.Same s' := by
  unfold diagnostic
  dsimp only
  generalize (be16 s.buf (headerLen + 2) ==
    if s.functionalAddr ≠ 0 then s.functionalAddr else defaultFunctionalAddr) = functional
  by_cases hgate : ¬s.activated = true ∨ be16 s.buf headerLen ≠ s.testerAddr
  · simp only [if_pos hgate]
    refine ⟨_, _, _, answers_put _ _ ?_, ⟨rfl, rfl⟩⟩
    rw [length_diagNackFrom]
    simp only [diagRespAt, headerLen]
    omega
  by_cases hroute : be16 s.buf (headerLen + 2) ≠ s.entityAddr ∧ ¬functional = true
  · simp only [if_neg hgate, if_pos hroute]
    obtain ⟨s', bytes, calls, hanswers, hu⟩ :=
      answers_route (w := w) (s.udsCap w) s (be16 s.buf (headerLen + 2)) plen
        (be16 s.buf headerLen)
    exact ⟨s', bytes, calls, hanswers, hu⟩
  · simp only [if_neg hgate, if_neg hroute]
    have hkept := kept_ask (c := c) hserve hh hs (s.request plen) functional
    obtain ⟨ctx, u, hsame, hu⟩ :=
      ask_same (w := w) (h := h) (c := c) s (s.request plen) functional
    have hcap : s.Same (s.ask w h c (s.request plen) functional).1 := by
      rw [hsame]
      exact ⟨hu, rfl⟩
    generalize s.ask w h c (s.request plen) functional = asked at hkept hcap
    obtain ⟨s', a, calls⟩ := asked
    dsimp only at hkept hcap ⊢
    by_cases hlen : a.len < 0 ∨ (s.udsCap w : ℤ) < a.len
    · simp only [if_pos hlen]
      exact ⟨s', _, calls, fun r => ⟨rfl, rfl, .put_fill r hkept.1 (by
        rw [length_diagNackFrom]; decide)⟩, hcap⟩
    · simp only [if_neg hlen]
      by_cases hpos : 0 < a.len
      · simp only [if_pos hpos]
        exact ⟨s', _, calls, fun r => ⟨rfl, rfl, .respond r hkept (by omega) (by omega) (by
          simp only [length_diagAck, List.length_append, length_header, length_bytes16,
            diagRespAt, headerLen])⟩, hcap⟩
      · simp only [if_neg hpos]
        exact ⟨s', _, calls, fun r => ⟨rfl, rfl, .put_fill r hkept.1 (by
          rw [length_diagAck]; decide)⟩, hcap⟩

/-- The answer to a message is a text within the room of one message, and does not depend on what
the response buffer holds. -/
theorem answers_dispatch (hserve : w.Honest) (hh : Uds.Application.Server.Honest h)
    (s : Server γ ε) (hs : s.uds.CapacityOk) (ptype : UInt16) (plen : ℕ) :
    ∃ s' bytes calls,
      Answers (s.udsCap w) (s.dispatch w h c ptype plen) s' bytes calls ∧ s.Same s' := by
  have hbad : ∃ s' bytes calls, Answers (s.udsCap w) s.badLength s' bytes calls ∧ s.Same s' :=
    ⟨_, _, _, answers_badLength _ s, ⟨rfl, rfl⟩⟩
  unfold dispatch
  split
  · split
    · exact hbad
    · obtain ⟨s', bytes, hanswers, hu⟩ := answers_activation (s.udsCap w) s
      exact ⟨s', bytes, [], hanswers, hu⟩
  split
  · split
    · exact hbad
    · exact ⟨s, [], [], fun r => ⟨rfl, rfl, .nothing _ r⟩, ⟨rfl, rfl⟩⟩
  split
  · split
    · exact hbad
    · refine ⟨s, _, [], answers_put s [] ?_, ⟨rfl, rfl⟩⟩
      simp only [infoResponse, diagRespAt, headerLen]
      split
      · simp
        omega
      split
      · simp
        omega
      · simp
        omega
  split
  · split
    · exact hbad
    · exact answers_diagnostic hserve hh s hs plen
  · refine ⟨s, _, [], answers_put s [] ?_, ⟨rfl, rfl⟩⟩
    simp only [genNack, length_frame, List.length_singleton, diagRespAt, headerLen]
    omega

theorem Same.udsCap {s s' : Server γ ε} (hsame : s.Same s') :
    s'.udsCap w = s.udsCap w := by
  simp only [Server.udsCap, Uds.Application.Server.cap, hsame.respCap]

theorem Same.capacityOk {s s' : Server γ ε} (hsame : s.Same s') (hs : s.uds.CapacityOk) :
    s'.uds.CapacityOk := by
  simpa only [Uds.Application.Server.CapacityOk, hsame.respCap] using hs

theorem same_dispatch (hserve : w.Honest) (hh : Uds.Application.Server.Honest h)
    (s : Server γ ε) (hs : s.uds.CapacityOk) (ptype : UInt16) (plen : ℕ) (r : Room) :
    s.Same (s.dispatch w h c ptype plen r).1 := by
  obtain ⟨s', bytes, calls, hanswers, hsame⟩ :=
    answers_dispatch (c := c) hserve hh s hs ptype plen
  rw [(hanswers r).1]
  exact hsame

end Server

/-! ## The front of the buffer -/

theorem head_whole {buf : List UInt8} {ptype : UInt16} {plen : ℕ}
    (hhead : head buf = .whole ptype plen) : headerLen + plen ≤ buf.length := by
  simp only [head] at hhead
  split at hhead
  · cases hhead
  split at hhead
  · cases hhead
  split at hhead
  · cases hhead
  split at hhead
  · cases hhead
  · obtain ⟨-, rfl⟩ := Head.whole.inj hhead
    omega

namespace Server
variable {γ ε : Type} {w : Serve γ} {h : Uds.Application.Hooks ε} {c : Uds.Application.Config}

/-- The states between the passes of a feed. -/
inductive Passes (w : Serve γ) (h : Uds.Application.Hooks ε) (c : Uds.Application.Config)
    (respMax : ℕ) (s : Server γ ε) (r : Room) : Server γ ε → Room → Prop
  | start : Passes w h c respMax s r s r
  | next {s₁ : Server γ ε} {r₁ : Room} {ptype : UInt16} {plen : ℕ}
    (before : Passes w h c respMax s r s₁ r₁) (message : head s₁.buf = .whole ptype plen)
    (room : r₁.len + s₁.maxRespPerMsg w ≤ respMax) :
    Passes w h c respMax s r
      { (s₁.dispatch w h c ptype plen r₁).1 with
        buf := (s₁.dispatch w h c ptype plen r₁).1.buf.drop (headerLen + plen) }
      (s₁.dispatch w h c ptype plen r₁).2.1

/-- What a feed keeps to: the assembly buffer, and the response buffer it was given. -/
structure InBounds (s : Server γ ε) (r : Room) (resp : ℕ → UInt8) (respMax : ℕ) : Prop where
  sound : s.Sound
  room : r.len ≤ respMax
  within : ∀ k, respMax ≤ k → r.cells k = resp k

namespace InBounds
variable {s : Server γ ε} {r : Room} {resp : ℕ → UInt8} {respMax : ℕ}

theorem dispatch (hserve : w.Honest) (hh : Uds.Application.Server.Honest h)
    (hb : InBounds s r resp respMax) (ptype : UInt16) (plen : ℕ)
    (hroom : r.len + s.maxRespPerMsg w ≤ respMax) {buf : List UInt8} (hbuf : buf.length ≤ maxMsg) :
    InBounds { (s.dispatch w h c ptype plen r).1 with buf := buf }
      (s.dispatch w h c ptype plen r).2.1 resp respMax := by
  obtain ⟨s', bytes, calls, hanswers, hu⟩ :=
    answers_dispatch (c := c) hserve hh s hb.sound.capacity ptype plen
  obtain ⟨hs', -, hemits⟩ := hanswers r
  simp only [maxRespPerMsg] at hroom
  have hlen := hemits.len
  have hshort := hemits.short
  refine ⟨⟨hbuf, ?_⟩, ?_, fun k hk => ?_⟩
  · rw [hs']
    exact hu.capacityOk hb.sound.capacity
  · omega
  · rw [hemits.within k (by omega)]
    exact hb.within k hk

/-- A header that ends the connection is answered as far as there is room. -/
theorem nackIfRoom (hb : InBounds s r resp respMax) (code : UInt8) :
    InBounds { s with buf := [], fatal := true } (Doip.nackIfRoom r code respMax) resp respMax := by
  simp only [Doip.nackIfRoom]
  split
  · exact ⟨⟨Nat.zero_le _, hb.sound.capacity⟩, hb.room, hb.within⟩
  · rename_i hroom
    simp only [headerLen] at hroom
    refine ⟨⟨Nat.zero_le _, hb.sound.capacity⟩, ?_, fun k hk => ?_⟩
    · simp only [Room.put, genNack, length_frame, List.length_singleton]
      omega
    · refine (store_of_ge _ _ ?_).trans (hb.within k hk)
      simp only [genNack, length_frame, List.length_singleton]
      omega

theorem passes (hserve : w.Honest) (hh : Uds.Application.Server.Honest h)
    (hb : InBounds s r resp respMax) {s' : Server γ ε} {r' : Room}
    (hp : Passes w h c respMax s r s' r') : InBounds s' r' resp respMax := by
  induction hp with
  | start => exact hb
  | next before message room ih =>
    refine ih.dispatch hserve hh _ _ room ?_
    have := ih.sound.fits
    rw [List.length_drop, (same_dispatch hserve hh _ ih.sound.capacity _ _ _).buf]
    omega

theorem serveAll (hserve : w.Honest) (hh : Uds.Application.Server.Honest h) (fuel : ℕ)
    (hb : InBounds s r resp respMax) :
    InBounds (s.serveAll w h c respMax fuel r).1 (s.serveAll w h c respMax fuel r).2.1
      resp respMax := by
  induction fuel generalizing s r with
  | zero => exact hb
  | succ fuel ih =>
    simp only [Server.serveAll]
    split
    · exact hb
    · exact hb.nackIfRoom _
    · rename_i ptype plen hhead
      split
      · exact hb
      · rename_i hroom
        split
        · exact hb.dispatch hserve hh ptype plen (by omega) (Nat.zero_le _)
        · refine ih (hb.dispatch hserve hh ptype plen (by omega) ?_)
          have := hb.sound.fits
          rw [List.length_drop, (same_dispatch hserve hh s hb.sound.capacity _ _ _).buf]
          omega

end InBounds

/-- The passes end: each takes a message out of the buffer, and more passes change nothing. -/
theorem serveAll_fuel (hserve : w.Honest) (hh : Uds.Application.Server.Honest h) (respMax : ℕ)
    (fuel fuel' : ℕ) (s : Server γ ε) (hs : s.uds.CapacityOk) (r : Room)
    (hfuel : s.buf.length < fuel) (hfuel' : s.buf.length < fuel') :
    s.serveAll w h c respMax fuel r = s.serveAll w h c respMax fuel' r := by
  induction fuel generalizing fuel' s r with
  | zero => exact absurd hfuel (Nat.not_lt_zero _)
  | succ fuel ih =>
    obtain ⟨fuel', rfl⟩ := Nat.exists_eq_succ_of_ne_zero (Nat.ne_of_gt (Nat.zero_lt_of_lt hfuel'))
    simp only [serveAll]
    split
    · rfl
    · rfl
    · rename_i ptype plen hhead
      have hlen := head_whole hhead
      simp only [headerLen] at hlen
      split
      · rfl
      split
      · rfl
      · have hsame := same_dispatch (c := c) hserve hh s hs ptype plen r
        have hdrop : ((s.dispatch w h c ptype plen r).1.buf.drop (headerLen + plen)).length <
            s.buf.length := by
          rw [List.length_drop, hsame.buf, headerLen]
          omega
        rw [ih fuel' { (s.dispatch w h c ptype plen r).1 with
          buf := (s.dispatch w h c ptype plen r).1.buf.drop (headerLen + plen) }
          (hsame.capacityOk hs) _ (Nat.lt_of_lt_of_le hdrop (Nat.le_of_lt_succ hfuel))
          (Nat.lt_of_lt_of_le hdrop (Nat.le_of_lt_succ hfuel'))]

end Server

open Server in
/-- For a chunk of any bytes and length and a response buffer of any capacity: the passes end;
before and behind each of them, and at the end, the bytes assembled are within the assembly buffer
and the response is within its capacity, with nothing written beyond it; and no message adds more
than the room that is set aside for one. -/
theorem feed_bounded {γ ε : Type} (w : Serve γ) (h : Uds.Application.Hooks ε)
    (c : Uds.Application.Config) (hserve : w.Honest) (hh : Uds.Application.Server.Honest h)
    (s : Server γ ε) (hs : s.Sound) (data : List UInt8) (resp : ℕ → UInt8) (respMax : ℕ) :
    (∀ fuel, s.buf.length + data.length < fuel →
      serveAll w h c respMax fuel { s with buf := s.buf ++ data } ⟨resp, 0⟩ =
        serveAll w h c respMax (s.buf.length + data.length + 1)
          { s with buf := s.buf ++ data } ⟨resp, 0⟩) ∧
      InBounds (s.feed w h c data resp respMax).1 (s.feed w h c data resp respMax).2.1
        resp respMax ∧
      ∀ s' r', s.buf.length + data.length ≤ maxMsg →
        Passes w h c respMax { s with buf := s.buf ++ data } ⟨resp, 0⟩ s' r' →
          InBounds s' r' resp respMax ∧ ∀ ptype plen,
            (s'.dispatch w h c ptype plen r').2.1.len ≤ r'.len + s'.maxRespPerMsg w := by
  have hstart : InBounds s ⟨resp, 0⟩ resp respMax := ⟨hs, Nat.zero_le _, fun _ _ => rfl⟩
  have happend : s.buf.length + data.length ≤ maxMsg →
      InBounds { s with buf := s.buf ++ data } ⟨resp, 0⟩ resp respMax := by
    intro hfits
    refine ⟨⟨?_, hs.capacity⟩, Nat.zero_le _, fun _ _ => rfl⟩
    rw [List.length_append]
    exact hfits
  have hlen : (s.buf ++ data).length = s.buf.length + data.length := List.length_append
  refine ⟨fun fuel hfuel => ?_, ?_, ?_⟩
  · exact serveAll_fuel hserve hh respMax _ _ { s with buf := s.buf ++ data } hs.capacity _
      (hlen ▸ hfuel) (hlen ▸ Nat.lt_succ_self _)
  · simp only [feed]
    split
    · exact hstart.nackIfRoom _
    · rename_i hfits
      exact (happend (by omega)).serveAll hserve hh _
  · intro s' r' hfits hp
    have hb := (happend hfits).passes hserve hh hp
    refine ⟨hb, fun ptype plen => ?_⟩
    obtain ⟨_, bytes, _, hanswers, -⟩ :=
      answers_dispatch (c := c) hserve hh s' hb.sound.capacity ptype plen
    have hemits := (hanswers r').2.2
    have hlen := hemits.len
    have hshort := hemits.short
    simp only [maxRespPerMsg]
    omega

/-- An entity with an embedded server that answers with six bytes at most. -/
def bench : Server Unit Unit where
  entityAddr := 0x1000
  testerAddr := 0
  activated := false
  fatal := false
  testers := []
  actTypes := []
  uds := { ctx := (), respCap := 6 }
  ctx := ()
  functionalAddr := 0
  buf := []
  routes := []
  conn := 0
  ticket := 0
  routeOpen := false

/-- A tester activates, and asks the embedded server whether it is there. -/
def activate (sa : UInt16) : List UInt8 := frame ptRouteReq (bytes16 sa ++ [0, 0, 0, 0, 0])
def testerPresent (sa : UInt16) : List UInt8 :=
  frame ptDiag (bytes16 sa ++ bytes16 0x1000 ++ [0x3E, 0x00])

theorem bench_sound : bench.Sound := ⟨Nat.zero_le _, .inr (.inr (by decide))⟩

theorem honest_noHooks : Uds.Application.Server.Honest ({} : Uds.Application.Hooks Unit) :=
  ⟨nofun, nofun⟩

/-- A header that announces the longest length there is, with no room for a response. -/
theorem feed_bounded_bench :
    Server.InBounds
      (bench.feed ({} : Serve Unit) {} {} (header ptDiag 0xFFFFFFFF) (fun _ => 0xEE) 3).1
      (bench.feed ({} : Serve Unit) {} {} (header ptDiag 0xFFFFFFFF) (fun _ => 0xEE) 3).2.1
      (fun _ => 0xEE) 3 :=
  (feed_bounded {} {} {} nofun honest_noHooks bench bench_sound _ _ _).2.1

end BloblyEmb.Doip
