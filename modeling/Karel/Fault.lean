import Karel.World.Basic

/-! # Faults of a run

A run that cannot go on stops with a fault: the line of the statement and the cause. The causes that
come from the grid name the robot's place when the fault hit.
-/

namespace Karel

inductive Fault.Cause where
  | blocked (pose : Pose)
  | noBeeper (cell : Cell)
  | beeperPresent (cell : Cell)
  | depthExceeded (command : String) (depth : Nat)
  | budgetExceeded (budget : Nat)
  deriving DecidableEq

def Fault.Cause.message : Fault.Cause → String
  | .blocked pose =>
    s!"cannot move through wall at {pose.cell.text} facing {pose.direction.name}"
  | .noBeeper cell => s!"there is no beeper to pick at {cell.text}"
  | .beeperPresent cell => s!"cannot drop a beeper at {cell.text}, there is already one"
  | .depthExceeded command depth => s!"call depth {depth} exceeded when calling `{command}`"
  | .budgetExceeded budget => s!"step budget of {budget} exhausted"

/-- A cause together with the source line at which it arose. -/
structure Fault where
  line : Nat
  cause : Fault.Cause
  deriving DecidableEq

def Fault.text (f : Fault) : String := s!"[runtime] line {f.line}: {f.cause.message}"

end Karel
