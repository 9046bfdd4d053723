import Karel.Diagnostic
import Karel.Source.Program

/-! # Names of commands

Collecting the names of a program gives each command its place, and refuses a command that takes the
name of a built-in or of an earlier command. The entry is looked up among the names.
-/

namespace Karel

/-- A declared name: the place of its command and the line of its declaration. -/
structure NameEntry where
  name : String
  index : Nat
  line : Nat
  deriving DecidableEq

abbrev NameTable := List NameEntry

namespace NameTable

def entry? (table : NameTable) (name : String) : Option NameEntry :=
  table.find? fun e => e.name == name

def index? (table : NameTable) (name : String) : Option Nat := (table.entry? name).map (·.index)

/-- Adds the names of commands to those of the commands before them. -/
def declareAll (table : NameTable) : List Command → Except Diagnostic NameTable
  | [] => .ok table
  | c :: cs =>
    if isVocabulary c.name then .error ⟨.redefinedBuiltin c.name, c.position⟩
    else
      match table.entry? c.name with
      | some first => .error ⟨.duplicateCommand c.name first.line, c.position⟩
      | none => declareAll (table ++ [⟨c.name, table.length, c.position.line⟩]) cs

def ofProgram (p : Program) : Except Diagnostic NameTable := declareAll [] p.commands

/-- The place of the command at which a run starts: the requested one, else the first. -/
def chooseEntry (table : NameTable) (p : Program) (requested : Option String) :
    Except Diagnostic Nat :=
  match requested with
  | some name =>
    match table.index? name with
    | some index => .ok index
    | none =>
      .error ⟨.entryNotFound name, match p.entry? with
        | some c => c.position
        | none => .start⟩
  | none => if p.commands.isEmpty then .error ⟨.noEntry, .start⟩ else .ok 0

end NameTable

end Karel
