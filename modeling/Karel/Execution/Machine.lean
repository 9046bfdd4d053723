import Karel.Execution.Control
import Karel.Execution.Verdict
import Karel.Executable.Basic

/-! # The machine

A run is a machine that takes small steps. Blocks, loops and calls that wait to go on are frames on
a stack. Each step looks at or changes what is shared with the outside, the control and the
published world, at most once; between two steps the outside may send a signal or publish a world
of its own.

Every node that is executed and every query that is asked counts as one step against the budget. An
action is checked, its world is published and noted in the trace, and then the run passes a gate,
where it sleeps while it is paused and has no permit. There is one more gate before the first
command.
-/

namespace Karel

/-- How far a run may go: its steps, and the calls that are open at one time. -/
structure Limits where
  budget : Nat := 10000000
  depth : Nat := 100
  deriving DecidableEq

inductive Outcome where
  | completed
  | fault (fault : Fault)
  | cancelled
  deriving DecidableEq

def Outcome.text : Outcome → String
  | .completed => "completed"
  | .fault f => f.text
  | .cancelled => "cancelled"

/-- An action that was performed: the line that asked for it and the world after it. -/
structure Event where
  primitive : Primitive
  line : Nat
  world : World
  deriving DecidableEq

/-- What waits to go on. The end of a block that is the body of a command ends a call. -/
inductive Frame where
  | block (nodes : List Node) (call : Bool)
  | «repeat» (body : List Node) (left : Nat)
  | «while» (condition : Condition) (body : List Node) (line : Nat)

/-- Where a run stands at a gate. It asks for the flags first and, if it is paused, asks again with
the control to itself. -/
inductive Gate where
  | askCancelled
  | askPaused
  | locked
  | asleep
  deriving DecidableEq

inductive Phase where
  /-- At a gate; `starting` at the one before the first command. -/
  | gate (stage : Gate) (starting : Bool)
  | calling (target line : Nat)
  /-- About to take the topmost frame up. -/
  | running
  /-- About to count the next query of a condition; then the one or the other frames go on. -/
  | testing (condition : Condition) (line : Nat) (yes no : List Frame)
  /-- About to look at the world for a query that is counted. -/
  | sensing (condition : Condition) (line : Nat) (yes no : List Frame)
  | acting (primitive : Primitive) (line : Nat)
  /-- About to publish the world after an action. -/
  | publishing (primitive : Primitive) (line : Nat) (next : World)
  | finished (outcome : Outcome)
  /-- At a call of a routine that is not there; no compiled program gets here. -/
  | lost (target : Nat)

/-- A run between two steps: the control, the published world, the frames with the topmost first,
the number of open calls, the steps counted, the actions performed with the latest first, and what
comes next. -/
structure Machine where
  control : Control
  world : World
  frames : List Frame := []
  depth : Nat := 0
  steps : Nat := 0
  trace : List Event := []
  phase : Phase := .gate .askCancelled true

/-- A frame for a block that is not empty. -/
def Frame.ofBody (body : List Node) : List Frame :=
  if body.isEmpty then [] else [.block body false]

namespace Machine

def finish (m : Machine) (outcome : Outcome) : Machine := { m with phase := .finished outcome }

def fail (m : Machine) (line : Nat) (cause : Fault.Cause) : Machine :=
  m.finish (.fault ⟨line, cause⟩)

/-- Goes on behind a gate. -/
def pass (e : Executable) (m : Machine) (starting : Bool) : Machine :=
  if starting then
    match e.entryRoutine? with
    | some r => { m with phase := .calling e.entry r.line }
    | none => { m with phase := .lost e.entry }
  else { m with phase := .running }

def passGate (e : Executable) (m : Machine) (starting : Bool) : Gate → Machine
  | .askCancelled =>
    if m.control.cancelled then m.finish .cancelled
    else { m with phase := .gate .askPaused starting }
  | .askPaused =>
    if m.control.paused then { m with phase := .gate .locked starting } else m.pass e starting
  | .locked =>
    if m.control.cancelled then m.finish .cancelled
    else if m.control.paused then
      match m.control.permits with
      | 0 => { m with phase := .gate .asleep starting }
      | n + 1 => { m with control := { m.control with permits := n } }.pass e starting
    else m.pass e starting
  | .asleep => m

/-- Opens a call, unless too many are open. -/
def openCall (e : Executable) (limits : Limits) (m : Machine) (target line : Nat) : Machine :=
  match e.routines[target]? with
  | none => { m with phase := .lost target }
  | some r =>
    if limits.depth ≤ m.depth then m.fail line (.depthExceeded r.name limits.depth)
    else
      { m with
        depth := m.depth + 1, frames := .block r.body true :: m.frames, phase := .running }

/-- Counts one step and goes on; a cancelled run and one beyond its budget end here. -/
@[inline]
def charge (limits : Limits) (m : Machine) (line : Nat) (next : Machine → Machine) : Machine :=
  if m.control.cancelled then m.finish .cancelled
  else
    let m := { m with steps := m.steps + 1 }
    if limits.budget < m.steps then m.fail line (.budgetExceeded limits.budget) else next m

def execute (node : Node) (m : Machine) : Machine :=
  match node with
  | .action p line => { m with phase := .acting p line }
  | .call target line => { m with phase := .calling target line }
  | .repeat count body _ => { m with frames := .repeat body count :: m.frames }
  | .if c yes no line => { m with phase := .testing c line (Frame.ofBody yes) (Frame.ofBody no) }
  | .while c body line => { m with frames := .while c body line :: m.frames }

def takeFrame (limits : Limits) (m : Machine) : Machine :=
  match m.frames with
  | [] => m.finish .completed
  | .block [] call :: rest =>
    { m with frames := rest, depth := if call then m.depth - 1 else m.depth }
  | .block (node :: nodes) call :: rest =>
    charge limits { m with frames := .block nodes call :: rest } node.line (execute node)
  | .repeat _ 0 :: rest => { m with frames := rest }
  | .repeat body (n + 1) :: rest => { m with frames := Frame.ofBody body ++ .repeat body n :: rest }
  | .while c body line :: rest =>
    { m with
      frames := rest, phase := .testing c line (Frame.ofBody body ++ [.while c body line]) [] }

/-- Looks at the world for the first query of a condition. -/
def sense (m : Machine) (c : Condition) (line : Nat) (yes no : List Frame) : Machine :=
  match c.answer (c.first.holds m.world) with
  | .known true => { m with frames := yes ++ m.frames, phase := .running }
  | .known false => { m with frames := no ++ m.frames, phase := .running }
  | .pending c' => { m with phase := .testing c' line yes no }

def attempt (m : Machine) (p : Primitive) (line : Nat) : Machine :=
  match p.check m.world with
  | .error cause => m.fail line cause
  | .ok () => { m with phase := .publishing p line (p.apply m.world) }

/-- One step. A run that has ended or that sleeps stays as it is. -/
def step (e : Executable) (limits : Limits) (m : Machine) : Machine :=
  match m.phase with
  | .gate stage starting => m.passGate e starting stage
  | .calling target line => m.openCall e limits target line
  | .running => m.takeFrame limits
  | .testing c line yes no =>
    charge limits m line fun m => { m with phase := .sensing c line yes no }
  | .sensing c line yes no => m.sense c line yes no
  | .acting p line => m.attempt p line
  | .publishing p line next =>
    { m with
      world := next, trace := ⟨p, line, next⟩ :: m.trace, phase := .gate .askCancelled false }
  | .finished _ => m
  | .lost _ => m

def isOver (m : Machine) : Bool :=
  match m.phase with
  | .finished _ | .lost _ => true
  | _ => false

def isAsleep (m : Machine) : Bool :=
  match m.phase with
  | .gate .asleep _ => true
  | _ => false

/-- Whether no step changes anything. -/
def isResting (m : Machine) : Bool :=
  match m.phase with
  | .finished _ | .lost _ | .gate .asleep _ => true
  | _ => false

def outcome? (m : Machine) : Option Outcome :=
  match m.phase with
  | .finished outcome => some outcome
  | _ => none

/-- The effect of a signal; a sleeper that is woken asks for the flags again. -/
def signal (m : Machine) (s : Signal) : Machine :=
  let control := s.apply m.control
  match m.phase with
  | .gate .asleep starting =>
    if s.wakes then { m with control, phase := .gate .locked starting } else { m with control }
  | _ => { m with control }

/-- A world published from outside. -/
def publish (m : Machine) (w : World) : Machine := { m with world := w }

end Machine

end Karel
