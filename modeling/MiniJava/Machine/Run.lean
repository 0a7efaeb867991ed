import MiniJava.Machine.Step

/-!
# Runs of the machine

A run executes instructions until the program ends itself, a step fails, or the limit on steps is
reached.

* **`RunError`** — why a run does not end as it should.
* **`runWithin`** — a run of at most so many steps.
* **`run`** — a run under the limits of a configuration.
* **`trace`** — single steps, with what each of them changed.
-/

namespace MiniJava.Machine

/-- Why a run does not end as it should. -/
inductive RunError where
  /-- The instruction on a line failed. -/
  | atLine (line : Int) (op : Opcode) (fault : Fault)
  /-- A step failed where there is no instruction. -/
  | nowhere (fault : Fault)
  /-- So many instructions were executed. -/
  | stepLimit (steps : Nat)
  /-- The run was called off. -/
  | cancelled
  deriving DecidableEq, Repr

namespace RunError

/-- The kind of an error. -/
def kind : RunError → FaultKind
  | atLine _ _ f => f.kind
  | nowhere f => f.kind
  | stepLimit _ => .stepLimit
  | cancelled => .cancelled

/-- The text of an error. -/
def message : RunError → Bytes
  | atLine n op f => "line " ++ decimal n ++ " (" ++ op.text ++ "): " ++ f.message
  | nowhere f => f.message
  | stepLimit n => "after " ++ natural n ++ " steps: " ++ FaultKind.stepLimit.text
  | cancelled => FaultKind.cancelled.text

end RunError

/-- How far a run got. -/
inductive Status where
  /-- The program ended itself. -/
  | exited
  | failed (error : RunError)
  /-- The run could go on. -/
  | unfinished
  deriving DecidableEq, Repr

/-- The error of a run in which a step failed. -/
def faultAt (p : Image) (pc : Int) (f : Fault) : RunError :=
  match fetch? p pc with
  | some i => .atLine i.line i.op f
  | none => .nowhere f

/-- How many steps lie between two looks at whether the run is called off. -/
def lookInterval : Nat := 4096

/-- Run for at most `n` steps.  `cancelled` says whether the run is called off. -/
def runWithin (p : Image) (cfg : Config) (cancelled : Bool) : (n : Nat) → State → Status × State
  | 0, s => if s.exited then (.exited, s) else (.unfinished, s)
  | n + 1, s =>
      if s.exited then (.exited, s)
      else if 0 < cfg.maxSteps ∧ cfg.maxSteps ≤ s.steps then (.failed (.stepLimit s.steps), s)
      else if cancelled && s.steps % lookInterval == 0 then (.failed .cancelled, s)
      else
        match step p cfg s with
        | .done s => runWithin p cfg cancelled n s
        | .fault f s => (.failed (faultAt p s.pc f), s)

/-- More steps than any run will take. -/
def endless : Nat := 0x4000000000000000

/-- Run under the limits of a configuration. -/
def run (p : Image) (cfg : Config) (cancelled : Bool) (s : State) : Status × State :=
  runWithin p cfg cancelled (if 0 < cfg.maxSteps then cfg.maxSteps.toNat + 1 else endless) s

/-! ### Traces -/

/-- What a step did. -/
structure TraceEntry where
  /-- The number of the instruction. -/
  pc : Int
  /-- The registers that changed, with their new values. -/
  changed : List (Reg × UInt32)
  hi : UInt32
  lo : UInt32
  /-- The size of the heap afterwards. -/
  heapSize : Nat
  /-- How much was printed by then. -/
  printed : Nat
  deriving DecidableEq, Repr

/-- What the step from `pc` with the given registers to `s` did. -/
def TraceEntry.of (pc : Int) (regs : Vector UInt32 32) (s : State) : TraceEntry where
  pc := pc
  changed := (List.finRange 32).filterMap fun r =>
    if s.reg r == regs.get r then none else some (r, s.reg r)
  hi := s.hi
  lo := s.lo
  heapSize := s.memory.heap.size
  printed := s.console.text.size

/-- At most `n` single steps: what they did, why they ended if one failed, and the last state. -/
def trace (p : Image) (cfg : Config) : (n : Nat) → State → List TraceEntry × Option Fault × State
  | 0, s => ([], none, s)
  | n + 1, s =>
      if s.exited then ([], none, s)
      else
        let pc := s.pc
        let regs := s.regs
        match step p cfg s with
        | .done s =>
            let entry := TraceEntry.of pc regs s
            let (entries, fault, s) := trace p cfg n s
            (entry :: entries, fault, s)
        | .fault f s => ([], some f, s)

end MiniJava.Machine
