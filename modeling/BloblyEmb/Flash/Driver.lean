import BloblyEmb.Flash.Memory

/-!
# Programs over a fallible flash

`FlashM` is the monad of code that works on a flash through a driver. The driver obeys a
script: each program or erase call takes the next entry, which lets it succeed, fail, or
ends the run by a power cut, after any prefix of the bytes has landed or any part of the
range has been wiped; each read takes its own entry and may be refused. A run yields an
outcome, the world it leaves, and the program and erase calls it made, with the content
of the flash before and after each.

Quantifying over scripts quantifies over every pattern of failures and cuts.
-/
namespace BloblyEmb.Flash

universe u
variable {α β γ : Type u}

/-- How a program or erase call goes wrong. `landed` is the number of leading bytes a
program leaves, `wiped` the offsets an erase gets to. -/
structure Fault where
  /-- The power goes, instead of the driver reporting the failure. -/
  cut : Bool
  landed : ℕ := 0
  wiped : ℕ → Bool := fun _ => false

/-- What is to come: entry `none`, or no entry, is success. -/
structure Faults where
  writes : List (Option Fault) := []
  /-- `true` refuses the read. -/
  reads : List Bool := []

structure World where
  mem : Mem
  faults : Faults

/-- One call of the driver, with the flash before and after it. `ok` is its answer,
`false` also for a call the power cut ended. -/
inductive Call
  | program (addr : ℕ) (data : List UInt8) (ok : Bool) (before after : Mem)
  | erase (addr size : ℕ) (ok : Bool) (before after : Mem)

namespace Call

def addr : Call → ℕ
  | .program addr _ _ _ _ => addr
  | .erase addr _ _ _ _ => addr

def size : Call → ℕ
  | .program _ data _ _ _ => data.length
  | .erase _ size _ _ _ => size

@[simp] theorem size_erase (a n : ℕ) (ok : Bool) (m m' : Mem) :
    (Call.erase a n ok m m').size = n := rfl

/-- The addresses the call works on. -/
def range : Call → Set ℕ
  | .program addr data _ _ _ => {x | addr ≤ x ∧ x < addr + data.length}
  | .erase addr size _ _ _ => {x | addr ≤ x ∧ x < addr + size}

def isProgram : Call → Bool
  | .program .. => true
  | .erase .. => false

def isErase (c : Call) : Bool := !c.isProgram

def ok : Call → Bool
  | .program _ _ ok _ _ => ok
  | .erase _ _ ok _ _ => ok

def before : Call → Mem
  | .program _ _ _ m _ => m
  | .erase _ _ _ m _ => m

def after : Call → Mem
  | .program _ _ _ _ m => m
  | .erase _ _ _ _ m => m

end Call

/-- The end of a run: a result, a power cut, or a run-time error (an index out of range). -/
inductive Outcome (α : Type u)
  | done (a : α)
  | cut
  | trap

structure Ran (α : Type u) where
  out : Outcome α
  world : World
  calls : List Call

/-- A computation that may call the flash driver. -/
def FlashM (α : Type u) := World → Ran α

namespace FlashM

protected def pure (a : α) : FlashM α := fun w => ⟨.done a, w, []⟩

protected def bind (m : FlashM α) (f : α → FlashM β) : FlashM β := fun w =>
  match m w with
  | ⟨.done a, w', cs⟩ => ⟨(f a w').out, (f a w').world, cs ++ (f a w').calls⟩
  | ⟨.cut, w', cs⟩ => ⟨.cut, w', cs⟩
  | ⟨.trap, w', cs⟩ => ⟨.trap, w', cs⟩

instance : Monad FlashM where
  pure := FlashM.pure
  bind := FlashM.bind

/-- The run ends in a run-time error. -/
def trap : FlashM α := fun w => ⟨.trap, w, []⟩

@[simp] theorem pure_apply (a : α) (w : World) : (pure a : FlashM α) w = ⟨.done a, w, []⟩ := rfl

theorem bind_apply (m : FlashM α) (f : α → FlashM β) (w : World) :
    (m >>= f) w = match m w with
      | ⟨.done a, w', cs⟩ => ⟨(f a w').out, (f a w').world, cs ++ (f a w').calls⟩
      | ⟨.cut, w', cs⟩ => ⟨.cut, w', cs⟩
      | ⟨.trap, w', cs⟩ => ⟨.trap, w', cs⟩ := rfl

theorem bind_of_done {m : FlashM α} {f : α → FlashM β} {w w' : World} {a : α} {cs : List Call}
    (h : m w = ⟨.done a, w', cs⟩) :
    (m >>= f) w = ⟨(f a w').out, (f a w').world, cs ++ (f a w').calls⟩ := by
  rw [bind_apply, h]

/-- Sequencing after a part that makes no call. -/
theorem bind_of_quiet {m : FlashM α} {f : α → FlashM β} {w w' : World} {a : α}
    (h : m w = ⟨.done a, w', []⟩) : (m >>= f) w = f a w' := by
  rw [bind_of_done h]
  rfl

/-- A continuation that makes no call adds none. -/
theorem calls_bind_of_quiet {m : FlashM α} {f : α → FlashM β} (h : ∀ a w, (f a w).calls = [])
    (w : World) : ((m >>= f) w).calls = (m w).calls := by
  rw [bind_apply]
  rcases m w with ⟨out, w', cs⟩
  cases out with
  | done a => simp [h]
  | cut => rfl
  | trap => rfl

/-- A continuation that only computes leaves the world and the calls. -/
theorem world_bind_pure (m : FlashM α) (f : α → β) (w : World) :
    ((m >>= fun a => pure (f a)) w).world = (m w).world := by
  rw [bind_apply]
  rcases m w with ⟨out, w', cs⟩
  cases out <;> rfl

theorem calls_bind_pure (m : FlashM α) (f : α → β) (w : World) :
    ((m >>= fun a => pure (f a)) w).calls = (m w).calls :=
  calls_bind_of_quiet (fun _ _ => rfl) w

@[simp] theorem pure_bind (a : α) (f : α → FlashM β) : (pure a >>= f) = f a := by
  funext w
  simp [bind_apply]

end FlashM

/-! ## The driver -/

/-- The script's word on the next program or erase. -/
def World.fault (w : World) : Option Fault := w.faults.writes.head?.join

/-- The world after a program or erase that leaves `m`. -/
def World.wrote (w : World) (m : Mem) : World :=
  { w with mem := m, faults.writes := w.faults.writes.tail }

/-- What a failed program or erase gives its caller: an answer, or nothing any more. -/
def Fault.outcome (f : Fault) : Outcome Bool := if f.cut then .cut else .done false

/-- A failed call that still answers answers `false`. -/
theorem Fault.outcome_done {f : Fault} {ok : Bool} (h : f.outcome = .done ok) : ok = false := by
  unfold Fault.outcome at h
  cases hc : f.cut with
  | false => simpa [hc] using h.symm
  | true => simp [hc] at h

/-- Program `data` at `addr`. -/
def program (addr : ℕ) (data : List UInt8) : FlashM Bool := fun w =>
  match w.fault with
  | none =>
    let m := w.mem.write addr data
    ⟨.done true, w.wrote m, [.program addr data true w.mem m]⟩
  | some f =>
    let m := w.mem.write addr (data.take f.landed)
    ⟨f.outcome, w.wrote m, [.program addr data false w.mem m]⟩

/-- Erase `[addr, addr+size)`. -/
def erase (addr size : ℕ) : FlashM Bool := fun w =>
  match w.fault with
  | none =>
    let m := w.mem.wipe fun x => addr ≤ x && x < addr + size
    ⟨.done true, w.wrote m, [.erase addr size true w.mem m]⟩
  | some f =>
    let m := w.mem.wipe fun x => addr ≤ x && x < addr + size && f.wiped (x - addr)
    ⟨f.outcome, w.wrote m, [.erase addr size false w.mem m]⟩

/-- A program call succeeds when the script has nothing against it. -/
theorem program_of_fault {w : World} (h : w.fault = none) (addr : ℕ) (data : List UInt8) :
    program addr data w = ⟨.done true, w.wrote (w.mem.write addr data),
      [.program addr data true w.mem (w.mem.write addr data)]⟩ := by
  simp [program, h]

/-- A program call that answers `true` stored its data. -/
theorem program_true {w w' : World} {addr : ℕ} {data : List UInt8} {cs : List Call}
    (h : program addr data w = ⟨.done true, w', cs⟩) :
    w'.mem = w.mem.write addr data ∧
      cs = [.program addr data true w.mem (w.mem.write addr data)] := by
  unfold program at h
  cases hf : w.fault with
  | none =>
    simp only [hf, Ran.mk.injEq] at h
    obtain ⟨-, rfl, rfl⟩ := h
    exact ⟨rfl, rfl⟩
  | some f =>
    simp only [hf, Ran.mk.injEq] at h
    exact nomatch f.outcome_done h.1

/-- A program is one call. -/
theorem calls_program (addr : ℕ) (data : List UInt8) (w : World) :
    ∃ ok, (program addr data w).calls =
      [.program addr data ok w.mem (program addr data w).world.mem] := by
  unfold program
  cases w.fault with
  | none => exact ⟨true, rfl⟩
  | some f => exact ⟨false, rfl⟩

theorem program_outside (addr : ℕ) (data : List UInt8) (w : World) {x : ℕ}
    (h : x < addr ∨ addr + data.length ≤ x) : (program addr data w).world.mem x = w.mem x := by
  unfold program
  cases w.fault with
  | none => exact Mem.write_outside _ _ _ _ h
  | some f =>
    refine Mem.write_outside _ _ _ _ ?_
    rw [List.length_take]
    omega

/-- An erase is one call. -/
theorem calls_erase (addr size : ℕ) (w : World) :
    ∃ ok m, (erase addr size w).calls = [.erase addr size ok w.mem m] := by
  unfold erase
  cases w.fault with
  | none => exact ⟨_, _, rfl⟩
  | some f => exact ⟨_, _, rfl⟩

/-- Read `n` bytes at `addr`, or `none` when the driver refuses. -/
def read (addr n : ℕ) : FlashM (Option (List UInt8)) := fun w =>
  ⟨.done (if w.faults.reads.headD false then none else some (w.mem.bytes addr n)),
    { w with faults.reads := w.faults.reads.tail }, []⟩

/-- The driver's blank check: every cell of `[addr, addr+n)` is erased. -/
def blank (addr n : ℕ) : FlashM Bool := fun w => ⟨.done (w.mem.erased addr n), w, []⟩

end BloblyEmb.Flash
