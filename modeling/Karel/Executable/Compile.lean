import Karel.Executable.Basic
import Karel.Executable.Names
import Karel.Source.ReadProgram

/-! # Compiling programs

Compiling resolves every call, to an action or to a declared command, and refuses the first that is
neither. Names are collected and the entry is chosen before any call is looked at, so their issues
come first.
-/

namespace Karel

namespace NameTable

def resolveCall (table : NameTable) (name : String) (position : Position) :
    Except Diagnostic Node :=
  match Primitive.ofName? name with
  | some p => .ok (.action p position.line)
  | none =>
    match table.index? name with
    | some target => .ok (.call target position.line)
    | none =>
      match Query.ofName? name with
      | some _ => .error ⟨.conditionAsStatement name, position⟩
      | none => .error ⟨.undefinedCommand name, position⟩

mutual

def resolveStatement (table : NameTable) : Statement → Except Diagnostic Node
  | .call name position => table.resolveCall name position
  | .repeat count body position => do
    let body ← resolveBlock table body
    return .repeat count body position.line
  | .if condition yes position => do
    let yes ← resolveBlock table yes
    return .if condition yes [] position.line
  | .ifElse condition yes no position => do
    let yes ← resolveBlock table yes
    let no ← resolveBlock table no
    return .if condition yes no position.line
  | .while condition body position => do
    let body ← resolveBlock table body
    return .while condition body position.line

def resolveBlock (table : NameTable) : List Statement → Except Diagnostic (List Node)
  | [] => .ok []
  | s :: ss => do
    let node ← resolveStatement table s
    let nodes ← resolveBlock table ss
    return node :: nodes

end

def resolveCommand (table : NameTable) (c : Command) : Except Diagnostic Routine := do
  let body ← table.resolveBlock c.body
  return ⟨c.name, body, c.position.line⟩

def resolveAll (table : NameTable) (p : Program) : Except Diagnostic (List Routine) :=
  p.commands.mapM table.resolveCommand

end NameTable

/-- The executable of a program that starts at the requested command, else at the first. -/
def Program.compile (p : Program) (requested : Option String) : Except Diagnostic Executable := do
  let table ← NameTable.ofProgram p
  let entry ← table.chooseEntry p requested
  let routines ← table.resolveAll p
  return ⟨entry, routines⟩

def compile (source : String) (requested : Option String) : Except Diagnostic Executable := do
  let program ← Program.parse source
  program.compile requested

end Karel
