import Karel.Execution.Run
import Karel.Executable.Compile

/-! # The log of a run

What compiling and running write to the log, as functions of the executable and of the run's report.
An observer that paces the run adds a record of its own after each action.
-/

namespace Karel

inductive Log.Level where
  | debug
  | info
  | warn
  deriving DecidableEq

def Log.Level.text : Log.Level → String
  | .debug => "DEBUG"
  | .info => "INFO"
  | .warn => "WARN"

structure Log.Record where
  level : Log.Level
  message : String
  deriving DecidableEq

def Log.Record.text (r : Log.Record) : String := s!"{r.level.text} {r.message}"

namespace Log

def compiled (e : Executable) (entry : Routine) : Record :=
  ⟨.debug, s!"compiled {e.routines.length} command(s), entry {entry.name}()"⟩

/-- What an action writes; with a pacer there is a second record. -/
def action (paced : Bool) (event : Event) : List Record :=
  let w := event.world
  let done : Record := ⟨.debug,
    s!"line {event.line}: {event.primitive.name} -> {w.cell.text} {w.direction.name}"⟩
  if paced then [done, ⟨.debug, s!"{event.primitive.name} at {w.cell.text}"⟩] else [done]

def ended (label : String) (r : Report) : List Record :=
  let outcome := s!"run `{label}`: {r.outcome.text}"
  [⟨.debug, s!"run `{label}`: {r.steps} step(s)"⟩]
    ++ (match r.outcome with
      | .fault _ => [⟨.warn, outcome⟩]
      | .completed | .cancelled => [])
    ++ [⟨.info, outcome⟩]

/-- The log of compiling an executable and running it. -/
def ofRun (e : Executable) (entry : Routine) (label : String) (paced : Bool) (r : Report) :
    List Record :=
  [compiled e entry, ⟨.info, s!"run `{label}`: starting at {entry.name}()"⟩]
    ++ r.trace.flatMap (action paced) ++ ended label r

end Log

end Karel
