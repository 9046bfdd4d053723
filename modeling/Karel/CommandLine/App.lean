import Karel.CommandLine.Arguments
import Karel.CommandLine.Folder
import Karel.Display.Animator
import Karel.Execution.Run
import Karel.Executable.Compile
import Karel.Text.Lines

/-! # The commands

What `check` and `run` print and with which code they exit. A diagnostic is reported with the line
it is about and a caret under its column; tabs before the caret stay tabs, so that it stands where
the reader sees it. A run that is not quiet shows a frame for its first world and one for every
action.
-/

namespace Karel.CommandLine

/-- What a command prints, and its exit code. The frames come first. -/
structure Printed where
  frames : List String := []
  stdout : String := ""
  stderr : String := ""
  exit : Nat
  deriving DecidableEq

def Printed.output (p : Printed) : String := String.join p.frames ++ p.stdout

inductive Failure where
  | unreadable (file : String) (error : ReadError)
  | lostRun
  deriving DecidableEq

def Failure.message : Failure → String
  | .unreadable file error => s!"Reading {file}: {error.message}"
  | .lostRun => "the run called a command that is not there"

/-- What stands before the caret: as wide as the text before it. -/
def caretPad (line : List Char) (column : Nat) : List Char :=
  (line.take (column - 1)).map fun c => if c = '\t' then '\t' else ' '

/-- The report of a diagnostic, with the line it is about if the source has it. -/
def explain (file source : String) (d : Diagnostic) : String :=
  let p := d.position
  let head := s!"{file}:{p.line}:{p.column}: error[{d.issue.code}]: {d.issue.message}\n"
  match (Text.lines source.toList)[p.line - 1]? with
  | some line =>
    head ++ "    " ++ String.ofList line ++ "\n    "
      ++ String.ofList (caretPad line p.column) ++ "^\n"
  | none => head

def rejected (file source : String) (d : Diagnostic) : Printed :=
  { stderr := explain file source d, exit := 1 }

def checkText (file source : String) (entry : Option String) : Except Failure Printed :=
  match compile source entry with
  | .error d => .ok (rejected file source d)
  | .ok e =>
    match e.entryRoutine? with
    | none => .error .lostRun
    | some r =>
      let summary := s!"{e.routines.length} command(s), entry {r.name}()"
      .ok { stdout := s!"{file}: ok, {summary}\n", exit := 0 }

def ending (file : String) (p : Printed) : Outcome → Printed
  | .completed => { p with stdout := p.stdout ++ s!"{file}: completed\n", exit := 0 }
  | .fault f =>
    { p with stderr := s!"{file}:{f.line}: runtime error: {f.cause.message}\n", exit := 2 }
  | .cancelled => { p with stderr := s!"{file}: cancelled\n", exit := 130 }

def runText (a : RunArguments) (source : String) : Except Failure Printed :=
  match compile source a.entry with
  | .error d => .ok (rejected a.file source d)
  | .ok e =>
    let w := a.startWorld
    match (e.run a.limits w).report? with
    | none => .error .lostRun
    | some r =>
      let shown : Printed :=
        if a.quiet then { stdout := r.world.picture ++ "\n", exit := 0 }
        else { frames := Animator.film w (r.trace.map (·.world)), exit := 0 }
      .ok (ending a.file shown r.outcome)

namespace Invocation

def file : Invocation → String
  | .check file _ => file
  | .run a => a.file

/-- The pause after each frame, in milliseconds. -/
def pause : Invocation → Nat
  | .check _ _ => 0
  | .run a => a.delay

def perform (i : Invocation) (text : Except ReadError String) : Except Failure Printed :=
  match text with
  | .error e => .error (.unreadable i.file e)
  | .ok source =>
    match i with
    | .check file entry => checkText file source entry
    | .run a => runText a source

end Invocation

/-- What the whole program prints: a failure is an error message and exit code one. -/
def conclude : Except Failure Printed → Printed
  | .ok p => p
  | .error f => { stderr := s!"error: {f.message}\n", exit := 1 }

end Karel.CommandLine
