import BloblyEmb.Doip.Bounds
import BloblyEmb.Doip.Net

/-!
# The stream of a connection

The bytes of a connection, read message by message: each message is answered on its own, up to the
first that ends the connection. Feeding the same bytes in chunks, and draining each chunk with empty
feeds, serves the same messages with the same answers and leaves the same state. Only the NACK of a
header that ends the connection is left out when the response buffer has no room for it any more.
-/
namespace BloblyEmb.Doip
open Buffer

/-- What the bytes of a connection come to: the state behind them, the answers to the messages, the
NACK of a header that ends the connection, and the messages. -/
structure Parsed (γ ε : Type) where
  server : Server γ ε
  answers : List UInt8
  nack : List UInt8
  served : List Served

/-- What is parsed behind some answers and messages. -/
def Parsed.behind {γ ε : Type} (p : Parsed γ ε) (answers : List UInt8) (served : List Served) :
    Parsed γ ε :=
  { p with answers := answers ++ p.answers, served := served ++ p.served }

theorem Parsed.behind_behind {γ ε : Type} (p : Parsed γ ε) (t₁ t₂ : List UInt8)
    (l₁ l₂ : List Served) : (p.behind t₂ l₂).behind t₁ l₁ = p.behind (t₁ ++ t₂) (l₁ ++ l₂) := by
  simp [Parsed.behind]

theorem Parsed.behind_nil {γ ε : Type} (p : Parsed γ ε) : p.behind [] [] = p := rfl

namespace Server
variable {γ ε : Type} (w : Serve γ) (h : Uds.Application.Hooks ε) (c : Uds.Application.Config)

/-- One message on its own: the state behind it, its answer and what was served. -/
def serveOne (s : Server γ ε) (ptype : UInt16) (plen : ℕ) (msg : List UInt8) :
    Server γ ε × List UInt8 × Served :=
  let (s', r, calls) := { s with buf := msg }.dispatch w h c ptype plen ⟨fun _ => 0, 0⟩
  (s', prefixOf r.cells r.len, ⟨ptype, (msg.drop headerLen).take plen, calls⟩)

/-- The messages of a stream, in at most `fuel` messages. -/
def parseIn : ℕ → Server γ ε → List UInt8 → Parsed γ ε
  | 0, s, bs => ⟨{ s with buf := bs }, [], [], []⟩
  | fuel + 1, s, bs =>
    match head bs with
    | .partly => ⟨{ s with buf := bs }, [], [], []⟩
    | .refused code => ⟨{ s with buf := [], fatal := true }, [], genNack code, []⟩
    | .whole ptype plen =>
      let (s', answer, m) := s.serveOne w h c ptype plen (bs.take (headerLen + plen))
      if s'.fatal then ⟨{ s' with buf := [] }, answer, [], [m]⟩
      else (parseIn fuel s' (bs.drop (headerLen + plen))).behind answer [m]

/-- The messages of a stream. -/
def parse (s : Server γ ε) (bs : List UInt8) : Parsed γ ε :=
  s.parseIn w h c (bs.length + 1) bs

/-- A connection's chunks, each drained before the next, until the connection is to end. -/
def stream (respMax : ℕ) (out : ℕ → UInt8) : Server γ ε → List (List UInt8) →
    Server γ ε × List (List UInt8) × List Served
  | s, [] => (s, [], [])
  | s, data :: rest =>
    if s.fatal then (s, [], [])
    else
      let (s, done) := s.exchange w h c respMax (s.buf.length + data.length + 2)
        (fun _ => true) data out
      let (s, sent, served) := stream respMax out s rest
      (s, done.sent ++ sent, done.served ++ served)

/-- Every chunk that is fed fits the assembly buffer. -/
def Fit (respMax : ℕ) (out : ℕ → UInt8) : Server γ ε → List (List UInt8) → Prop
  | _, [] => True
  | s, data :: rest => s.fatal = false → s.buf.length + data.length ≤ maxMsg ∧
      Fit respMax out (s.exchange w h c respMax (s.buf.length + data.length + 2)
        (fun _ => true) data out).1 rest

variable {w : Serve γ} {h : Uds.Application.Hooks ε} {c : Uds.Application.Config}

/-! ## Messages in a longer buffer -/

theorem getD_take (buf : List UInt8) {n i : ℕ} (hi : i < n) :
    (buf.take n).getD i 0 = buf.getD i 0 := by
  simp [List.getD_eq_getElem?_getD, hi]

theorem be16_take (buf : List UInt8) {n i : ℕ} (hi : i + 1 < n) :
    be16 (buf.take n) i = be16 buf i := by
  simp only [be16]
  rw [getD_take buf (Nat.lt_of_succ_lt hi), getD_take buf hi]

theorem request_take (s : Server γ ε) (plen : ℕ) (hfive : 5 ≤ plen) :
    ({ s with buf := s.buf.take (headerLen + plen) } : Server γ ε).request plen = s.request plen := by
  simp only [request]
  rw [List.drop_take, List.take_take]
  congr 1
  simp only [headerLen]
  omega

/-- A state with other bytes assembled. -/
def withBuf (s : Server γ ε) (buf : List UInt8) : Server γ ε := { s with buf := buf }

theorem activation_take (s : Server γ ε) (plen : ℕ) (hplen : plen = 7 ∨ plen = 11) (r : Room) :
    s.activation r =
      (((s.withBuf (s.buf.take (headerLen + plen))).activation r).1.withBuf s.buf,
        ((s.withBuf (s.buf.take (headerLen + plen))).activation r).2) := by
  have hsa := be16_take s.buf (n := headerLen + plen) (i := headerLen) (by omega)
  have hat := getD_take s.buf (n := headerLen + plen) (i := headerLen + 2) (by omega)
  have hcode : (s.withBuf (s.buf.take (headerLen + plen))).activationCode = s.activationCode := rfl
  have hbuf : (s.withBuf (s.buf.take (headerLen + plen))).buf = s.buf.take (headerLen + plen) := rfl
  simp only [activation]
  rw [hcode, hbuf, hsa, hat]
  split <;> rfl

theorem ask_withBuf (s : Server γ ε) (buf req : List UInt8) (functional : Bool) :
    s.ask w h c req functional =
      (((s.withBuf buf).ask w h c req functional).1.withBuf s.buf,
        ((s.withBuf buf).ask w h c req functional).2) := by
  simp only [ask]
  cases w.answer <;> rfl

theorem route_withBuf (s : Server γ ε) (buf : List UInt8) (ta : UInt16) (plen : ℕ)
    (hreq : (s.withBuf buf).request plen = s.request plen) (r : Room) (sa : UInt16) :
    s.route w ta plen r sa =
      (((s.withBuf buf).route w ta plen r sa).1.withBuf s.buf,
        ((s.withBuf buf).route w ta plen r sa).2) := by
  have hindex : (s.withBuf buf).routeIndex ta = s.routeIndex ta := rfl
  simp only [route]
  rw [hreq, hindex]
  cases s.routeIndex ta with
  | none => rfl
  | some idx =>
    cases w.route with
    | none => rfl
    | some hook =>
      dsimp only
      split
      · rename_i hcode
        rw [if_pos (show (hook (s.withBuf buf).ctx idx (s.request plen) (s.withBuf buf).conn
          ((s.withBuf buf).ticket + 1)).2 ≠ 0 from hcode)]
        rfl
      · rename_i hcode
        rw [if_neg (show ¬(hook (s.withBuf buf).ctx idx (s.request plen) (s.withBuf buf).conn
          ((s.withBuf buf).ticket + 1)).2 ≠ 0 from hcode)]
        rfl

theorem diagnostic_take (s : Server γ ε) (plen : ℕ) (hfive : 5 ≤ plen) (r : Room) :
    s.diagnostic w h c plen r =
      (((s.withBuf (s.buf.take (headerLen + plen))).diagnostic w h c plen r).1.withBuf s.buf,
        ((s.withBuf (s.buf.take (headerLen + plen))).diagnostic w h c plen r).2) := by
  have hsa := be16_take s.buf (n := headerLen + plen) (i := headerLen) (by omega)
  have hta := be16_take s.buf (n := headerLen + plen) (i := headerLen + 2) (by omega)
  have hreq : (s.withBuf (s.buf.take (headerLen + plen))).request plen = s.request plen :=
    request_take s plen hfive
  have hbuf : (s.withBuf (s.buf.take (headerLen + plen))).buf = s.buf.take (headerLen + plen) := rfl
  have hcap : (s.withBuf (s.buf.take (headerLen + plen))).udsCap w = s.udsCap w := rfl
  have hfunc : (s.withBuf (s.buf.take (headerLen + plen))).functionalAddr = s.functionalAddr := rfl
  simp only [diagnostic]
  rw [hbuf, hsa, hta, hreq, hcap, hfunc]
  generalize (be16 s.buf (headerLen + 2) ==
    if s.functionalAddr ≠ 0 then s.functionalAddr else defaultFunctionalAddr) = functional
  generalize be16 s.buf (headerLen + 2) = ta
  generalize be16 s.buf headerLen = sa
  have hask := ask_withBuf (w := w) (h := h) (c := c) s
    (s.buf.take (headerLen + plen)) (s.request plen) functional
  have hroute := route_withBuf (w := w) s (s.buf.take (headerLen + plen)) ta plen hreq r sa
  generalize hx : s.withBuf (s.buf.take (headerLen + plen)) = t at hask hroute ⊢
  have h₁ : t.activated = s.activated := by rw [← hx]; rfl
  have h₂ : t.testerAddr = s.testerAddr := by rw [← hx]; rfl
  have h₃ : t.entityAddr = s.entityAddr := by rw [← hx]; rfl
  have h₄ : t.withBuf s.buf = s := by rw [← hx]; rfl
  rw [h₁, h₂, h₃]
  by_cases hgate : ¬s.activated = true ∨ sa ≠ s.testerAddr
  · simp only [if_pos hgate, h₄]
  by_cases hto : ta ≠ s.entityAddr ∧ ¬functional = true
  · simp only [if_neg hgate, if_pos hto]
    exact hroute
  · simp only [if_neg hgate, if_neg hto]
    rw [hask]
    have haddr : ∀ x : Server γ ε, (x.withBuf s.buf).entityAddr = x.entityAddr := fun _ => rfl
    dsimp only
    rw [haddr]
    split
    · rfl
    · split <;> rfl

/-- What is behind a message does not change how it is answered. -/
theorem dispatch_take (s : Server γ ε) (ptype : UInt16) (plen : ℕ) (r : Room) :
    s.dispatch w h c ptype plen r =
      (((s.withBuf (s.buf.take (headerLen + plen))).dispatch w h c ptype plen r).1.withBuf
          s.buf,
        ((s.withBuf (s.buf.take (headerLen + plen))).dispatch w h c ptype plen r).2) := by
  simp only [dispatch]
  split
  · split
    · rfl
    · exact activation_take s plen (by omega) r
  split
  · split <;> rfl
  split
  · split <;> rfl
  split
  · split
    · rfl
    · exact diagnostic_take s plen (by omega) r
  · rfl

/-! ## Message by message -/

/-- A message in the buffer is answered as it is on its own. -/
theorem serveOne_spec (hserve : w.Honest) (hh : Uds.Application.Server.Honest h)
    (s : Server γ ε) (hs : s.uds.CapacityOk) (ptype : UInt16) (plen : ℕ) (r : Room) :
    ∃ s' answer calls,
      s.serveOne w h c ptype plen (s.buf.take (headerLen + plen)) =
          (s', answer, ⟨ptype, (s.buf.drop headerLen).take plen, calls⟩) ∧
        (s.dispatch w h c ptype plen r).1 = s'.withBuf s.buf ∧
        (s.dispatch w h c ptype plen r).2.2 = calls ∧
        Emits (s.udsCap w) r (s.dispatch w h c ptype plen r).2.1 answer ∧
        s'.uds.respCap = s.uds.respCap := by
  obtain ⟨s', answer, calls, hanswers, hsame⟩ := answers_dispatch (c := c) hserve hh
    (s.withBuf (s.buf.take (headerLen + plen))) hs ptype plen
  obtain ⟨hs', hcalls, hemits⟩ := hanswers r
  refine ⟨s', answer, calls, ?_, ?_, ?_, ?_, hsame.respCap⟩
  · obtain ⟨hs₀, hcalls₀, hemits₀⟩ := hanswers ⟨fun _ => 0, 0⟩
    have htext := hemits₀.text
    simp only [withBuf] at hs₀ hcalls₀ htext
    simp only [serveOne]
    rw [hs₀, hcalls₀, htext, List.drop_take, List.take_take]
    simp [prefixOf]
  · rw [dispatch_take, hs']
  · rw [dispatch_take, hcalls]
  · rw [dispatch_take]
    exact hemits

theorem getD_append (buf more : List UInt8) {i : ℕ} (hi : i < buf.length) :
    (buf ++ more).getD i 0 = buf.getD i 0 := by
  simp [List.getD_eq_getElem?_getD, List.getElem?_append_left hi]

/-- More bytes do not change what the front of the buffer holds once it is known. -/
theorem head_append {buf : List UInt8} (more : List UInt8) (hhead : head buf ≠ .partly) :
    head (buf ++ more) = head buf := by
  by_cases hlen : buf.length < headerLen
  · simp [head, hlen] at hhead
  simp only [headerLen, Nat.not_lt] at hlen
  have hget : ∀ i < 8, (buf ++ more).getD i 0 = buf.getD i 0 :=
    fun i hi => getD_append buf more (by omega)
  have h32 : be32 (buf ++ more) 4 = be32 buf 4 := by
    simp only [be32]
    rw [hget 4 (by omega), hget (4 + 1) (by omega), hget (4 + 2) (by omega), hget (4 + 3) (by omega)]
  have h16 : be16 (buf ++ more) 2 = be16 buf 2 := by
    simp only [be16]
    rw [hget 2 (by omega), hget (2 + 1) (by omega)]
  have hlong : ∀ b : List UInt8, 8 ≤ b.length → head b =
      if b.getD 0 0 ≠ protoVer ∨ b.getD 1 0 ≠ protoInv then .refused nackBadPattern
      else if (maxMsg - headerLen).toUInt32 < be32 b 4 then .refused nackTooLarge
      else if b.length < headerLen + (be32 b 4).toNat then .partly
      else .whole (be16 b 2) (be32 b 4).toNat := fun b hb => if_neg (Nat.not_lt.mpr hb)
  rw [hlong buf hlen] at hhead ⊢
  rw [hlong (buf ++ more) (by rw [List.length_append]; omega), hget 0 (by omega),
    hget 1 (by omega), h32, h16, List.length_append]
  split
  · rfl
  rename_i hpattern
  rw [if_neg hpattern] at hhead
  split
  · rfl
  rename_i hlarge
  rw [if_neg hlarge] at hhead
  by_cases hwhole : buf.length < headerLen + (be32 buf 4).toNat
  · rw [if_pos hwhole] at hhead
    exact absurd rfl hhead
  · rw [if_neg hwhole, if_neg (by omega)]

theorem parseIn_fuel (fuel fuel' : ℕ) (s : Server γ ε) (bs : List UInt8)
    (hfuel : bs.length < fuel) (hfuel' : bs.length < fuel') :
    s.parseIn w h c fuel bs = s.parseIn w h c fuel' bs := by
  induction fuel generalizing fuel' s bs with
  | zero => exact absurd hfuel (Nat.not_lt_zero _)
  | succ fuel ih =>
    obtain ⟨fuel', rfl⟩ := Nat.exists_eq_succ_of_ne_zero (Nat.ne_of_gt (Nat.zero_lt_of_lt hfuel'))
    simp only [parseIn]
    split
    · rfl
    · rfl
    · rename_i ptype plen hhead
      have hlen := head_whole hhead
      simp only [headerLen] at hlen
      have hdrop : (bs.drop (headerLen + plen)).length < bs.length := by
        rw [List.length_drop, headerLen]
        omega
      rw [ih fuel' _ _ (by omega) (by omega)]

/-- Parsing does not depend on the bytes that are already assembled. -/
theorem parse_withBuf (s : Server γ ε) (buf bs : List UInt8) :
    (s.withBuf buf).parse w h c bs = s.parse w h c bs := rfl

theorem parse_partly (s : Server γ ε) {bs : List UInt8} (hhead : head bs = .partly) :
    s.parse w h c bs = ⟨s.withBuf bs, [], [], []⟩ := by
  simp only [parse, parseIn, hhead]
  rfl

theorem parse_refused (s : Server γ ε) {bs : List UInt8} {code : UInt8}
    (hhead : head bs = .refused code) :
    s.parse w h c bs =
      ⟨{ s with buf := [], fatal := true }, [], genNack code, []⟩ := by
  simp only [parse, parseIn, hhead]

theorem parse_whole (s : Server γ ε) {bs : List UInt8} {ptype : UInt16} {plen : ℕ}
    (hhead : head bs = .whole ptype plen) {s' : Server γ ε} {answer : List UInt8} {m : Served}
    (hone : s.serveOne w h c ptype plen (bs.take (headerLen + plen)) = (s', answer, m)) :
    s.parse w h c bs =
      if s'.fatal then ⟨s'.withBuf [], answer, [], [m]⟩
      else (s'.parse w h c (bs.drop (headerLen + plen))).behind answer [m] := by
  have hlen := head_whole hhead
  simp only [headerLen] at hlen
  have hdrop : (bs.drop (headerLen + plen)).length < bs.length := by
    rw [List.length_drop, headerLen]
    omega
  simp only [parse, parseIn, hhead, hone]
  rw [parseIn_fuel (w := w) (h := h) (c := c) bs.length
    ((bs.drop (headerLen + plen)).length + 1) s' _ hdrop (Nat.lt_succ_self _)]
  rfl

/-! ## Feeds -/

/-- What some feeds came to, against what the stream holds. They go on: the rest of the stream is
parsed from the state they left. Or they met the end of the connection, and nothing behind it counts:
then a NACK may be left out, for which there was no room. -/
def Matches (w : Serve γ) (h : Uds.Application.Hooks ε) (c : Uds.Application.Config)
    (s : Server γ ε) (bs : List UInt8) (s' : Server γ ε) (text : List UInt8) (served : List Served)
    (short : Prop) : Prop :=
  (s'.fatal = false ∧ ∀ more, s.parse w h c (bs ++ more) =
      (s'.parse w h c (s'.buf ++ more)).behind text served) ∨
    s'.fatal = true ∧ s'.buf = [] ∧ ∃ answers nack,
      (∀ more, s.parse w h c (bs ++ more) = ⟨s', answers, nack, served⟩) ∧
        (text = answers ++ nack ∨ nack ≠ [] ∧ text = answers ∧ short)

namespace Matches
variable {s s' : Server γ ε} {bs text : List UInt8} {served : List Served} {short : Prop}

theorem start (s : Server γ ε) (hs : s.fatal = false) :
    Matches w h c s s.buf s [] [] short :=
  .inl ⟨hs, fun _ => (Parsed.behind_nil _).symm⟩

/-- What is matched behind some answers. -/
theorem behind (next : List UInt8) {s₁ : Server γ ε} {text₁ : List UInt8} {served₁ : List Served}
    (hfirst : ∀ more, s.parse w h c (bs ++ more) =
      (s₁.parse w h c (s₁.buf ++ more)).behind text₁ served₁)
    (hm : Matches w h c s₁ (s₁.buf ++ next) s' text served short) :
    Matches w h c s (bs ++ next) s' (text₁ ++ text) (served₁ ++ served) short := by
  rcases hm with ⟨hf, hrest⟩ | ⟨hf, hbuf, answers, nack, hrest, htext⟩
  · refine .inl ⟨hf, fun more => ?_⟩
    rw [List.append_assoc, hfirst, ← List.append_assoc, hrest, Parsed.behind_behind]
  · refine .inr ⟨hf, hbuf, text₁ ++ answers, nack, fun more => ?_, ?_⟩
    · rw [List.append_assoc, hfirst, ← List.append_assoc, hrest]
      rfl
    · rcases htext with htext | ⟨hne, htext, hshort⟩
      · exact .inl (by rw [htext, List.append_assoc])
      · exact .inr ⟨hne, by rw [htext], hshort⟩

theorem imp {short' : Prop} (hm : Matches w h c s bs s' text served short)
    (hi : short → short') : Matches w h c s bs s' text served short' := by
  rcases hm with hm | ⟨hf, hbuf, answers, nack, hrest, htext⟩
  · exact .inl hm
  · exact .inr ⟨hf, hbuf, answers, nack, hrest, htext.imp id fun ⟨h₁, h₂, h₃⟩ => ⟨h₁, h₂, hi h₃⟩⟩

end Matches

/-- The passes of a feed match the stream. -/
theorem serveAll_matches (hserve : w.Honest) (hh : Uds.Application.Server.Honest h)
    (respMax fuel : ℕ) (s : Server γ ε) (hs : s.uds.CapacityOk) (hf : s.fatal = false) (r : Room) :
    ∃ text, prefixOf (s.serveAll w h c respMax fuel r).2.1.cells
          (s.serveAll w h c respMax fuel r).2.1.len = prefixOf r.cells r.len ++ text ∧
      (s.serveAll w h c respMax fuel r).1.uds.respCap = s.uds.respCap ∧
      Matches w h c s s.buf (s.serveAll w h c respMax fuel r).1 text
        (s.serveAll w h c respMax fuel r).2.2
        (respMax < (s.serveAll w h c respMax fuel r).2.1.len + headerLen + 1) := by
  induction fuel generalizing s r with
  | zero => exact ⟨[], by simp [serveAll], rfl, .start s hf⟩
  | succ fuel ih =>
    simp only [serveAll]
    split
    · exact ⟨[], by simp, rfl, .start s hf⟩
    · rename_i code hhead
      have hparse : ∀ more, s.parse w h c (s.buf ++ more) =
          ⟨{ s with buf := [], fatal := true }, [], genNack code, []⟩ := fun more =>
        parse_refused s ((head_append more (by rw [hhead]; exact fun h => (by cases h))).trans hhead)
      simp only [nackIfRoom]
      split
      · rename_i hshort
        exact ⟨[], by simp, trivial, .inr ⟨rfl, rfl, [], genNack code, hparse, .inr ⟨by
          simp [genNack, frame], rfl, hshort⟩⟩⟩
      · exact ⟨genNack code, prefixOf_store _ _ _, trivial,
          .inr ⟨rfl, rfl, [], genNack code, hparse, .inl rfl⟩⟩
    · rename_i ptype plen hhead
      split
      · exact ⟨[], by simp, rfl, .start s hf⟩
      obtain ⟨s', answer, calls, hone, hs', hcalls, hemits, hcap⟩ :=
        serveOne_spec (c := c) hserve hh s hs ptype plen r
      have hlen := head_whole hhead
      have htake : ∀ more, (s.buf ++ more).take (headerLen + plen) =
          s.buf.take (headerLen + plen) := fun more => List.take_append_of_le_length hlen
      have hdrop : ∀ more, (s.buf ++ more).drop (headerLen + plen) =
          s.buf.drop (headerLen + plen) ++ more := fun more => List.drop_append_of_le_length hlen
      have hparse : ∀ more, s.parse w h c (s.buf ++ more) =
          if s'.fatal then ⟨s'.withBuf [], answer, [],
              [⟨ptype, (s.buf.drop headerLen).take plen, calls⟩]⟩
          else (s'.parse w h c (s.buf.drop (headerLen + plen) ++ more)).behind answer
            [⟨ptype, (s.buf.drop headerLen).take plen, calls⟩] := by
        intro more
        rw [← hdrop]
        exact parse_whole s ((head_append more (by rw [hhead]; exact fun h => (by cases h))).trans hhead)
          (by rw [htake]; exact hone)
      generalize s.dispatch w h c ptype plen r = d at hs' hcalls hemits
      obtain ⟨s₁, r₁, calls₁⟩ := d
      dsimp only at hs' hcalls hemits ⊢
      subst hs' hcalls
      cases hfatal : s'.fatal with
      | true =>
        rw [if_pos (show (s'.withBuf s.buf).fatal = true from hfatal)]
        refine ⟨answer, hemits.text, hcap, .inr ⟨hfatal, rfl, answer, [], fun more => ?_, .inl ?_⟩⟩
        · rw [hparse, if_pos hfatal]
          rfl
        · rw [List.append_nil]
      | false =>
        rw [if_neg (show ¬(s'.withBuf s.buf).fatal = true from by simp [withBuf, hfatal])]
        have hcapOk : s'.uds.CapacityOk := by
          simpa only [Uds.Application.Server.CapacityOk, hcap] using hs
        obtain ⟨text, htext, hcap', hm⟩ := ih
          (s'.withBuf (s.buf.drop (headerLen + plen))) hcapOk hfatal r₁
        refine ⟨answer ++ text, ?_, hcap'.trans hcap, ?_⟩
        · exact htext.trans (by rw [hemits.text, List.append_assoc])
        · have hfirst : ∀ more, s.parse w h c (s.buf ++ more) =
              ((s'.withBuf (s.buf.drop (headerLen + plen))).parse w h c
                ((s'.withBuf (s.buf.drop (headerLen + plen))).buf ++ more)).behind answer
                  [⟨ptype, (s.buf.drop headerLen).take plen, calls₁⟩] := by
            intro more
            rw [hparse, if_neg (by simp [hfatal]), parse_withBuf]
            rfl
          have hboth := Matches.behind [] hfirst (by rw [List.append_nil]; exact hm)
          rw [List.append_nil] at hboth
          exact hboth

/-- The passes end with the connection, with too few bytes for a message, or with too little room
for an answer; and without a message they leave the response buffer as it is. -/
theorem serveAll_rests (hserve : w.Honest) (hh : Uds.Application.Server.Honest h)
    (respMax fuel : ℕ) (s : Server γ ε) (hs : s.uds.CapacityOk) (hfuel : s.buf.length < fuel)
    (r : Room) :
    (s.serveAll w h c respMax fuel r).1.fatal = true ∨
      (head (s.serveAll w h c respMax fuel r).1.buf = .partly ∨
        respMax < (s.serveAll w h c respMax fuel r).2.1.len + s.maxRespPerMsg w) ∧
      ((s.serveAll w h c respMax fuel r).2.1.len = r.len ∧
          (s.serveAll w h c respMax fuel r).1.buf.length ≤ s.buf.length ∨
        (s.serveAll w h c respMax fuel r).1.buf.length < s.buf.length) := by
  induction fuel generalizing s r with
  | zero => exact absurd hfuel (Nat.not_lt_zero _)
  | succ fuel ih =>
    simp only [serveAll]
    split
    · rename_i hhead
      exact .inr ⟨.inl hhead, .inl ⟨rfl, Nat.le_refl _⟩⟩
    · exact .inl rfl
    · rename_i ptype plen hhead
      have hlen := head_whole hhead
      split
      · rename_i hroom
        exact .inr ⟨.inr hroom, .inl ⟨rfl, Nat.le_refl _⟩⟩
      split
      · rename_i hfatal
        exact .inl hfatal
      · have hsame := same_dispatch (c := c) hserve hh s hs ptype plen r
        have hdrop : ((s.dispatch w h c ptype plen r).1.buf.drop (headerLen + plen)).length <
            s.buf.length := by
          simp only [headerLen] at hlen ⊢
          rw [List.length_drop, hsame.buf]
          omega
        have hcap : Server.maxRespPerMsg w
            { (s.dispatch w h c ptype plen r).1 with
              buf := (s.dispatch w h c ptype plen r).1.buf.drop (headerLen + plen) } =
              s.maxRespPerMsg w := by
          simp only [maxRespPerMsg, udsCap, Uds.Application.Server.cap, hsame.respCap]
        have hrest := ih { (s.dispatch w h c ptype plen r).1 with
          buf := (s.dispatch w h c ptype plen r).1.buf.drop (headerLen + plen) }
          (hsame.capacityOk hs) (by dsimp only; omega) (s.dispatch w h c ptype plen r).2.1
        rw [hcap] at hrest
        refine hrest.imp id fun hend => ⟨hend.1, .inr ?_⟩
        rcases hend.2 with ⟨-, hle⟩ | hlt
        · exact Nat.lt_of_le_of_lt hle hdrop
        · exact Nat.lt_trans hlt hdrop

/-! ## Chunks -/

/-- The last response has no room for a NACK behind it. -/
def Short (respMax : ℕ) (sent : List (List UInt8)) : Prop :=
  ∃ last ∈ sent.getLast?, respMax < last.length + headerLen + 1

theorem Short.cons {respMax : ℕ} {sent : List (List UInt8)} (hs : Short respMax sent)
    (first : List UInt8) : Short respMax (first :: sent) := by
  obtain ⟨last, hlast, hroom⟩ := hs
  refine ⟨last, ?_, hroom⟩
  cases sent with
  | nil => cases hlast
  | cons a sent => simpa using hlast

theorem feed_fits (s : Server γ ε) {data : List UInt8}
    (hfits : s.buf.length + data.length ≤ maxMsg) (out : ℕ → UInt8) (respMax : ℕ) :
    s.feed w h c data out respMax =
      (s.withBuf (s.buf ++ data)).serveAll w h c respMax ((s.buf ++ data).length + 1)
        ⟨out, 0⟩ := by
  simp only [feed]
  rw [if_neg (Nat.not_lt.mpr hfits)]
  rfl

/-- Behind the end of the connection an empty feed does nothing. -/
theorem exchange_idle (s : Server γ ε) (hs : s.buf = []) (respMax fuel : ℕ) (sends : ℕ → Bool)
    (out : ℕ → UInt8) :
    s.exchange w h c respMax (fuel + 1) sends [] out = (s, ⟨[], [], false⟩) := by
  have hfeed : s.feed w h c [] out respMax = (s, ⟨out, 0⟩, []) := by
    rw [feed_fits s (by simp [hs])]
    have hsame : s.withBuf (s.buf ++ []) = s := by
      rw [List.append_nil]
      rfl
    rw [hsame]
    simp [serveAll, hs, head, headerLen]
  simp only [exchange, hfeed, if_true]

/-- A chunk that is drained matches the stream, and leaves no whole message behind. -/
theorem exchange_matches (hserve : w.Honest) (hh : Uds.Application.Server.Honest h)
    (respMax fuel : ℕ) (s : Server γ ε) (hs : s.uds.CapacityOk) (hf : s.fatal = false)
    (hroom : s.maxRespPerMsg w ≤ respMax) (data : List UInt8)
    (hfits : s.buf.length + data.length ≤ maxMsg) (hfuel : s.buf.length + data.length + 1 < fuel)
    (out : ℕ → UInt8) :
    (s.exchange w h c respMax fuel (fun _ => true) data out).1.uds.respCap =
        s.uds.respCap ∧
      Matches w h c s (s.buf ++ data)
        (s.exchange w h c respMax fuel (fun _ => true) data out).1
        (s.exchange w h c respMax fuel (fun _ => true) data out).2.sent.flatten
        (s.exchange w h c respMax fuel (fun _ => true) data out).2.served
        (Short respMax (s.exchange w h c respMax fuel (fun _ => true) data out).2.sent) ∧
      ((s.exchange w h c respMax fuel (fun _ => true) data out).1.fatal = false →
        head (s.exchange w h c respMax fuel (fun _ => true) data out).1.buf = .partly) := by
  induction fuel generalizing s data out with
  | zero => exact absurd hfuel (Nat.not_lt_zero _)
  | succ fuel ih =>
    have hlen : (s.buf ++ data).length = s.buf.length + data.length := List.length_append
    obtain ⟨text, htext, hcap, hm⟩ := serveAll_matches (c := c) hserve hh respMax
      ((s.buf ++ data).length + 1) (s.withBuf (s.buf ++ data)) hs hf ⟨out, 0⟩
    have hrests := serveAll_rests (c := c) hserve hh respMax ((s.buf ++ data).length + 1)
      (s.withBuf (s.buf ++ data)) hs (Nat.lt_succ_self _) ⟨out, 0⟩
    simp only [exchange]
    rw [← feed_fits s hfits] at htext hcap hm hrests
    generalize s.feed w h c data out respMax = d at htext hcap hm hrests
    obtain ⟨s₁, r₁, log₁⟩ := d
    dsimp only at htext hcap hm hrests ⊢
    replace htext : prefixOf r₁.cells r₁.len = text := by simpa [prefixOf] using htext
    replace hm : Matches w h c s (s.buf ++ data) s₁ text log₁
      (respMax < r₁.len + headerLen + 1) := hm
    have hwide : diagRespAt ≤ respMax := Nat.le_trans (Nat.le_add_right _ _) hroom
    have hroom₁ : s₁.maxRespPerMsg w ≤ respMax := by
      have : s₁.maxRespPerMsg w = s.maxRespPerMsg w := by
        simp only [maxRespPerMsg, udsCap, Uds.Application.Server.cap, hcap]
        rfl
      omega
    by_cases hnone : r₁.len = 0
    · rw [if_pos hnone]
      have hempty : text = [] := by rw [← htext, hnone]; rfl
      subst hempty
      refine ⟨hcap, hm.imp fun hshort => ?_, fun hfatal => ?_⟩
      · simp only [hnone, headerLen, diagRespAt] at hshort hwide
        omega
      · rcases hrests with hfatal' | ⟨hstop | hstop, -⟩
        · rw [hfatal] at hfatal'
          cases hfatal'
        · exact hstop
        · have : (s.withBuf (s.buf ++ data)).maxRespPerMsg w = s.maxRespPerMsg w := rfl
          omega
    · rw [if_neg hnone, if_neg (by simp)]
      have htextLen : text.length = r₁.len := by rw [← htext, length_prefixOf]
      rcases hm with ⟨hfatal, hfirst⟩ | ⟨hfatal, hbuf, hend⟩
      · have hless : s₁.buf.length < s.buf.length + data.length := by
          rcases hrests with hfatal' | ⟨-, ⟨hzero, -⟩ | hless⟩
          · rw [hfatal] at hfatal'
            cases hfatal'
          · exact absurd hzero hnone
          · rw [← hlen]
            exact hless
        have hs₁ : s₁.uds.CapacityOk := by
          simp only [Uds.Application.Server.CapacityOk, hcap]
          exact hs
        obtain ⟨hcap', hm', hrest⟩ := ih s₁ hs₁ hfatal hroom₁ [] (by simp; omega) (by simp; omega)
          r₁.cells
        refine ⟨hcap'.trans hcap, ?_, hrest⟩
        rw [htext]
        have hboth := (Matches.behind [] hfirst hm').imp fun hshort => hshort.cons text
        rw [List.append_nil] at hboth
        exact hboth
      · obtain ⟨fuel, rfl⟩ := Nat.exists_eq_succ_of_ne_zero (n := fuel) (by omega)
        rw [exchange_idle s₁ hbuf]
        refine ⟨hcap, ?_, fun hf => ?_⟩
        · rw [htext]
          have hdone : Matches w h c s (s.buf ++ data) s₁ text log₁
            (respMax < r₁.len + headerLen + 1) := .inr ⟨hfatal, hbuf, hend⟩
          simp only [List.flatten_cons, List.flatten_nil, List.append_nil]
          exact hdone.imp fun hshort => ⟨text, rfl, by rw [htextLen]; exact hshort⟩
        · rw [hfatal] at hf
          cases hf

theorem stream_matches (hserve : w.Honest) (hh : Uds.Application.Server.Honest h)
    (respMax : ℕ) (out : ℕ → UInt8) (s : Server γ ε) (hs : s.uds.CapacityOk)
    (hf : s.fatal = false) (hroom : s.maxRespPerMsg w ≤ respMax) (hhead : head s.buf = .partly)
    (chunks : List (List UInt8)) (hfit : s.Fit w h c respMax out chunks) :
    Matches w h c s (s.buf ++ chunks.flatten)
        (s.stream w h c respMax out chunks).1
        (s.stream w h c respMax out chunks).2.1.flatten
        (s.stream w h c respMax out chunks).2.2
        (Short respMax (s.stream w h c respMax out chunks).2.1) ∧
      ((s.stream w h c respMax out chunks).1.fatal = false →
        head (s.stream w h c respMax out chunks).1.buf = .partly) := by
  induction chunks generalizing s with
  | nil =>
    rw [List.flatten_nil, List.append_nil]
    exact ⟨.start s hf, fun _ => hhead⟩
  | cons data rest ih =>
    obtain ⟨hfits, hfit⟩ := hfit hf
    obtain ⟨hcap, hm, hrest⟩ := exchange_matches (c := c) hserve hh respMax
      (s.buf.length + data.length + 2) s hs hf hroom data hfits (Nat.lt_succ_self _) out
    simp only [stream]
    rw [if_neg (by simp [hf])]
    generalize s.exchange w h c respMax (s.buf.length + data.length + 2) (fun _ => true) data
      out = d at hcap hm hrest hfit
    obtain ⟨s₁, done⟩ := d
    dsimp only at hcap hm hrest hfit ⊢
    rw [List.flatten_cons, ← List.append_assoc]
    have hs₁ : s₁.uds.CapacityOk := by
      simp only [Uds.Application.Server.CapacityOk, hcap]
      exact hs
    have hroom₁ : s₁.maxRespPerMsg w ≤ respMax := by
      simp only [maxRespPerMsg, udsCap, Uds.Application.Server.cap, hcap] at hroom ⊢
      exact hroom
    rcases hm with ⟨hfatal, hfirst⟩ | ⟨hfatal, hbuf, answers, nack, hend, htext⟩
    · obtain ⟨hm', hrest'⟩ := ih s₁ hs₁ hfatal hroom₁ (hrest hfatal) hfit
      refine ⟨?_, hrest'⟩
      rw [List.flatten_append]
      refine (Matches.behind _ hfirst hm').imp fun hshort => ?_
      obtain ⟨last, hlast, hshort⟩ := hshort
      refine ⟨last, ?_, hshort⟩
      rw [List.getLast?_append, Option.mem_def.mp hlast]
      rfl
    · have hstop : s₁.stream w h c respMax out rest = (s₁, [], []) := by
        cases rest with
        | nil => rfl
        | cons data' rest => simp only [stream, hfatal, if_true]
      rw [hstop]
      simp only [List.append_nil]
      refine ⟨.inr ⟨hfatal, hbuf, answers, nack, fun more => ?_, htext⟩, fun hf' => ?_⟩
      · rw [List.append_assoc]
        exact hend _
      · rw [hfatal] at hf'
        cases hf'

end Server

open Server in
/-- A connection starts without bytes, and its chunks fit the assembly buffer. However the stream
is cut, and whatever the capacity, the messages served, their calls, the answers and the state
behind them are those of the stream read message by message up to the first that ends the
connection. Only the NACK of a header that ends it is left out when the response before it left no
room for it. -/
theorem stream_cut {γ ε : Type} (w : Serve γ) (h : Uds.Application.Hooks ε)
    (c : Uds.Application.Config) (hserve : w.Honest) (hh : Uds.Application.Server.Honest h)
    (s : Server γ ε) (hs : s.uds.CapacityOk) (hf : s.fatal = false) (hbuf : s.buf = [])
    (respMax : ℕ) (hroom : s.maxRespPerMsg w ≤ respMax) (out : ℕ → UInt8)
    (chunks : List (List UInt8)) (hfit : s.Fit w h c respMax out chunks) :
    (s.stream w h c respMax out chunks).1 = (s.parse w h c chunks.flatten).server ∧
      (s.stream w h c respMax out chunks).2.2 = (s.parse w h c chunks.flatten).served ∧
      ((s.stream w h c respMax out chunks).2.1.flatten =
          (s.parse w h c chunks.flatten).answers ++ (s.parse w h c chunks.flatten).nack ∨
        (s.parse w h c chunks.flatten).nack ≠ [] ∧
          (s.stream w h c respMax out chunks).2.1.flatten =
            (s.parse w h c chunks.flatten).answers ∧
          Short respMax (s.stream w h c respMax out chunks).2.1) := by
  have hhead : head s.buf = .partly := by simp [head, hbuf, headerLen]
  obtain ⟨hm, hrest⟩ := stream_matches hserve hh respMax out s hs hf hroom hhead chunks hfit
  rw [hbuf, List.nil_append] at hm
  rcases hm with ⟨hfatal, hparse⟩ | ⟨-, -, answers, nack, hparse, htext⟩
  · have hall := hparse []
    rw [List.append_nil, List.append_nil, parse_partly _ (hrest hfatal)] at hall
    rw [hall]
    exact ⟨rfl, by simp [Parsed.behind], .inl (by simp [Parsed.behind])⟩
  · have hall := hparse []
    rw [List.append_nil] at hall
    rw [hall]
    exact ⟨rfl, rfl, htext⟩

open Server in
/-- The answer to the request and the NACK of the bytes behind it, in three chunks. -/
theorem stream_cut_bench :
    (bench.stream ({} : Serve Unit) {} {} 31 (fun _ => 0)
        [activate 0x0E80, testerPresent 0x0E80 ++ [0, 0, 0, 0], [0, 0, 0, 0]]).2.2 =
      (bench.parse ({} : Serve Unit) {} {} [activate 0x0E80, testerPresent 0x0E80 ++ [0, 0, 0, 0],
        [0, 0, 0, 0]].flatten).served := by
  refine (stream_cut {} {} {} nofun honest_noHooks bench bench_sound.capacity rfl rfl 31 (by decide)
    (fun _ => 0) _ ?_).2.1
  exact fun _ => ⟨by decide, fun _ => ⟨by decide +kernel, fun _ => ⟨by decide +kernel, trivial⟩⟩⟩

open Server in
/-- In one chunk the NACK of the bytes behind a request finds no room, while those bytes on their
own are answered with it. -/
theorem nack_depends_on_cut :
    ¬∀ (γ ε : Type) (w : Serve γ) (h : Uds.Application.Hooks ε) (c : Uds.Application.Config),
      w.Honest → Uds.Application.Server.Honest h → ∀ s : Server γ ε, s.uds.CapacityOk →
      s.fatal = false → s.buf = [] → ∀ respMax, s.maxRespPerMsg w ≤ respMax →
      ∀ (out : ℕ → UInt8) (chunks : List (List UInt8)), s.Fit w h c respMax out chunks →
        (s.stream w h c respMax out chunks).2.1.flatten =
          (s.parse w h c chunks.flatten).answers ++ (s.parse w h c chunks.flatten).nack := by
  intro hall
  have heq := hall Unit Unit {} {} {} nofun honest_noHooks bench bench_sound.capacity rfl rfl 31
    (by decide) (fun _ => 0) [activate 0x0E80 ++ testerPresent 0x0E80 ++ [0, 0, 0, 0, 0, 0, 0, 0]]
    fun _ => ⟨by decide, trivial⟩
  revert heq
  decide +kernel

end BloblyEmb.Doip
