import Karel.Source.Program

/-! # Executables

What a run works on: the commands of a program with every name resolved. A call names its target by
the place of the command in the program, an action is told apart from a call, and of the positions
only the lines are kept, for the faults of a run.
-/

namespace Karel

inductive Node where
  | action (primitive : Primitive) (line : Nat)
  | call (target : Nat) (line : Nat)
  | «repeat» (count : Nat) (body : List Node) (line : Nat)
  | «if» (condition : Condition) (yes no : List Node) (line : Nat)
  | «while» (condition : Condition) (body : List Node) (line : Nat)

def Node.line : Node → Nat
  | .action _ line => line
  | .call _ line => line
  | .repeat _ _ line => line
  | .if _ _ _ line => line
  | .while _ _ line => line

structure Routine where
  name : String
  body : List Node
  line : Nat

/-- The executable form of a program, with the place of the routine at which a run starts. -/
structure Executable where
  entry : Nat
  routines : List Routine

namespace Executable

def entryRoutine? (e : Executable) : Option Routine := e.routines[e.entry]?

/-- The place of the first routine with a given name. -/
def find? (e : Executable) (name : String) : Option Nat :=
  e.routines.findIdx? fun r => r.name == name

end Executable

end Karel
