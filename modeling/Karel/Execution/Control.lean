/-! # Controlling a run

A run is controlled from outside through three values: whether it is paused, whether it is
cancelled, and how many more actions it may perform while paused. Signals change them. A run that
waits at a gate sleeps until a signal wakes it; pausing and resetting wake nobody.
-/

namespace Karel

@[ext]
structure Control where
  paused : Bool := false
  cancelled : Bool := false
  permits : Nat := 0
  deriving DecidableEq

inductive Signal where
  | pause
  | resume
  | step
  | cancel
  | reset
  deriving DecidableEq

namespace Signal

/-- What a signal does to the control. Resuming takes unused permits back, a step grants one more
and pauses, and a reset forgets everything. -/
def apply : Signal → Control → Control
  | .pause, c => { c with paused := true }
  | .resume, c => { c with paused := false, permits := 0 }
  | .step, c => { c with paused := true, permits := c.permits + 1 }
  | .cancel, c => { c with cancelled := true }
  | .reset, _ => {}

def wakes : Signal → Bool
  | .resume | .step | .cancel => true
  | .pause | .reset => false

end Signal

end Karel
