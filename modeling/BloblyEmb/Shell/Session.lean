import BloblyEmb.Isotp.Link
import Mathlib.Data.List.Induction

/-!
# The command shell

Command lines and their responses (`comm/shell`). A line names a command of the registry, whose handler
may do anything to the world; on a wire without the right to change it, a state-changing command is
refused before it runs.
-/
namespace BloblyEmb.Shell

def maxRsp : ℕ := Isotp.maxPayload

def text (s : String) : List UInt8 := s.toUTF8.toList

/-- The response under way, which never outgrows its buffer. -/
structure Rsp where
  buf : List UInt8
  room : buf.length ≤ maxRsp

namespace Rsp

def empty : Rsp := ⟨[], Nat.zero_le _⟩

def put (r : Rsp) (b : UInt8) : Rsp :=
  if h : maxRsp ≤ r.buf.length then r
  else ⟨r.buf ++ [b], by rw [List.length_append, List.length_singleton]; omega⟩

def write (r : Rsp) (s : List UInt8) : Rsp := s.foldl put r

def nl (r : Rsp) : Rsp := r.write (text "\n")

def writePadded (r : Rsp) (s : List UInt8) (w : ℕ) : Rsp :=
  (r.write s).write (if w ≤ s.length then text " " else List.replicate (w - s.length) 32)

/-- The digits of a number, the last one first. -/
def digits (v : ℕ) : ℕ → List UInt8
  | 0 => []
  | fuel + 1 => if v = 0 then [] else UInt8.ofNat (48 + v % 10) :: digits (v / 10) fuel

/-- `write_u32`: at most ten digits. -/
def writeU32 (r : Rsp) (n : UInt32) : Rsp :=
  if n = 0 then r.write (text "0") else r.write (digits n.toNat 10).reverse

end Rsp

/-- A handler gets the arguments, the time and the response. -/
abbrev CmdFn (σ : Type) := List UInt8 → UInt64 → σ → Rsp → σ × Rsp

structure Cmd (σ : Type) where
  name : List UInt8
  help : List UInt8
  f : CmdFn σ
  mutate : Bool

def maxCmds : ℕ := 16

/-- The registry. -/
structure ShellModule (σ : Type) where
  cmds : List (Cmd σ) := []

variable {σ : Type}

namespace ShellModule

/-- `register_class` -/
def register (m : ShellModule σ) (c : Cmd σ) : ShellModule σ :=
  if maxCmds ≤ m.cmds.length then m else { cmds := m.cmds ++ [c] }

def clearCmd : CmdFn σ := fun _ _ w rsp =>
  (w, (rsp.write (text "(clearing is the client display's job)")).nl)

def uptimeCmd : CmdFn σ := fun _ now w rsp =>
  let secs := (now / 1000000).toUInt32
  (w, (((((rsp.write (text "up ")).writeU32 (secs / 60)).write (text "m ")).writeU32
    (secs % 60)).write (text "s")).nl)

def init : ShellModule σ :=
  (register { cmds := [] } ⟨text "uptime", text "time since boot", uptimeCmd, false⟩).register
    ⟨text "clear", text "clear the screen (client-side)", clearCmd, false⟩

/-- The name on a line: what stands before the first blank. -/
def nameOf (line : List UInt8) : List UInt8 := line.take (line.idxOf 32)

def argsOf (line : List UInt8) : List UInt8 := line.drop (line.idxOf 32 + 1)

/-- The listing of the registry. -/
def listing (m : ShellModule σ) (rsp : Rsp) : Rsp :=
  m.cmds.foldl (fun r c => (((r.writePadded c.name 8).write (text "- ")).write c.help).nl)
    (((rsp.writePadded (text "help") 8).write (text "- list commands")).nl)

/-- The first command of a name. -/
def lookup (m : ShellModule σ) (name : List UInt8) : Option (Cmd σ) :=
  m.cmds.find? fun c => c.name = name

def orOk (rsp : Rsp) : Rsp := if rsp.buf.length = 0 then (rsp.write (text "ok")).nl else rsp

def unknown (rsp : Rsp) (line : List UInt8) : Rsp :=
  let rsp := (rsp.write (text "unknown command — try help")).nl
  (((rsp.write (text "got: \"")).write line).write (text "\"")).nl

/-- One line; `false` when it is refused. -/
def dispatch (m : ShellModule σ) (line : List UInt8) (now : UInt64) (allowMutate : Bool) (w : σ)
    (rsp : Rsp) : Bool × σ × Rsp :=
  if nameOf line = text "help" then (true, w, m.listing rsp)
  else
    match m.lookup (nameOf line) with
    | some c =>
      if c.mutate && !allowMutate then (false, w, rsp)
      else
        let r := c.f (argsOf line) now w rsp
        (true, r.1, orOk r.2)
    | none => (true, w, orOk (unknown rsp line))

/-- A session: each line gets a response of its own. -/
def serve (m : ShellModule σ) (allowMutate : Bool) (s : σ × List (Bool × Rsp))
    (l : List UInt8 × UInt64) : σ × List (Bool × Rsp) :=
  let r := m.dispatch l.1 l.2 allowMutate s.1 .empty
  (r.2.1, s.2 ++ [(r.1, r.2.2)])

def session (m : ShellModule σ) (allowMutate : Bool) (w : σ) (ls : List (List UInt8 × UInt64)) :
    σ × List (Bool × Rsp) :=
  ls.foldl (m.serve allowMutate) (w, [])

/-! ## What a line does -/

/-- The command that a line runs. -/
def target (m : ShellModule σ) (line : List UInt8) : Option (Cmd σ) :=
  if nameOf line = text "help" then none else m.lookup (nameOf line)

/-- What a line does to the world where it may change it. -/
def effect (m : ShellModule σ) (l : List UInt8 × UInt64) (w : σ) : σ :=
  match m.target l.1 with
  | some c => (c.f (argsOf l.1) l.2 w .empty).1
  | none => w

/-- A line that needs the right to change the world. -/
def changes (m : ShellModule σ) (line : List UInt8) : Bool :=
  match m.target line with
  | some c => c.mutate
  | none => false

theorem dispatch_spec (m : ShellModule σ) (l : List UInt8 × UInt64) (allow : Bool) (w : σ) :
    (m.dispatch l.1 l.2 allow w .empty).1 = (allow || !m.changes l.1) ∧
      (m.dispatch l.1 l.2 allow w .empty).2.1 =
        (if allow || !m.changes l.1 then m.effect l w else w) ∧
      ((m.dispatch l.1 l.2 allow w .empty).1 = false → (m.dispatch l.1 l.2 allow w .empty).2.2.buf = []) := by
  unfold dispatch changes effect target
  by_cases hhelp : nameOf l.1 = text "help"
  · simp [hhelp]
  · simp only [if_neg hhelp]
    cases m.lookup (nameOf l.1) with
    | none => simp
    | some c => cases hm : c.mutate <;> cases allow <;> simp [hm, Rsp.empty]

/-! ## Sessions -/

/-- By induction on the lines. -/
theorem session_spec (m : ShellModule σ) (allow : Bool) (w : σ) (ls : List (List UInt8 × UInt64)) :
    (m.session allow w ls).1 =
        (ls.filter fun l => allow || !m.changes l.1).foldl (fun v l => m.effect l v) w ∧
      (m.session allow w ls).2.map Prod.fst = ls.map (fun l => allow || !m.changes l.1) ∧
      ∀ a ∈ (m.session allow w ls).2, a.1 = false → a.2.buf = [] := by
  induction ls using List.reverseRecOn with
  | nil => exact ⟨rfl, rfl, fun a ha => absurd ha List.not_mem_nil⟩
  | append_singleton ls l ih =>
    obtain ⟨h1, h2, h3⟩ := ih
    obtain ⟨hok, hworld, hempty⟩ := m.dispatch_spec l allow (m.session allow w ls).1
    have hstep : m.session allow w (ls ++ [l]) = m.serve allow (m.session allow w ls) l := by
      rw [session, List.foldl_append]
      rfl
    rw [hstep, serve]
    refine ⟨?_, ?_, fun a ha => ?_⟩
    · dsimp only
      rw [hworld, List.filter_append, List.foldl_append, ← h1]
      cases hc : (allow || !m.changes l.1) with
      | true => simp [hc]
      | false => simp [hc]
    · dsimp only
      rw [List.map_append, h2, List.map_append, List.map_singleton, List.map_singleton, hok]
    · rcases List.mem_append.mp ha with ha | ha
      · exact h3 a ha
      · rw [List.mem_singleton.mp ha]
        exact hempty

theorem register_mem {m : ShellModule σ} {c d : Cmd σ} (h : d ∈ (m.register c).cmds) :
    d ∈ m.cmds ∨ d = c := by
  unfold register at h
  split at h
  · exact .inl h
  · simpa using h

theorem registered {m : ShellModule σ} {cs : List (Cmd σ)} {d : Cmd σ}
    (h : d ∈ (cs.foldl register m).cmds) : d ∈ m.cmds ∨ d ∈ cs := by
  induction cs generalizing m with
  | nil => exact .inl h
  | cons c cs ih =>
    rcases ih h with h | h
    · rcases register_mem h with h | rfl
      · exact .inl h
      · exact .inr List.mem_cons_self
    · exact .inr (List.mem_cons_of_mem _ h)

theorem init_reads {d : Cmd σ} (h : d ∈ (init : ShellModule σ).cmds) (args : List UInt8) (now : UInt64)
    (w : σ) (rsp : Rsp) : (d.f args now w rsp).1 = w := by
  rcases register_mem h with h | rfl
  · rcases register_mem h with h | rfl
    · exact absurd h List.not_mem_nil
    · rfl
  · rfl

end ShellModule

end BloblyEmb.Shell
