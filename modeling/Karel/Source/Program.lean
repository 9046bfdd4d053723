import Karel.Source.Position
import Karel.Vocabulary

/-! # Programs

The tree that a source text stands for. A program is a list of commands, a command a list of
statements. Every command, statement and query keeps the position of its first token.
-/

namespace Karel

inductive Condition where
  | query (query : Query) (position : Position)
  | not (operand : Condition)
  | and (left right : Condition)
  | or (left right : Condition)
  deriving DecidableEq

/-- A statement. An `else` that is missing and one that is empty are told apart; an `else if` is an
`else` whose only statement is an `if`. -/
inductive Statement where
  | call (name : String) (position : Position)
  | «repeat» (count : Nat) (body : List Statement) (position : Position)
  | «if» (condition : Condition) (yes : List Statement) (position : Position)
  | ifElse (condition : Condition) (yes no : List Statement) (position : Position)
  | «while» (condition : Condition) (body : List Statement) (position : Position)

/-- The place of a statement's first token. -/
def Statement.position : Statement → Position
  | .call _ p => p
  | .repeat _ _ p => p
  | .if _ _ p => p
  | .ifElse _ _ _ p => p
  | .while _ _ p => p

structure Command where
  name : String
  body : List Statement
  position : Position

/-- The commands of a source text in the order of their declaration. -/
structure Program where
  commands : List Command

namespace Program

/-- The first command, where a run starts if nothing else is said. -/
def entry? (p : Program) : Option Command := p.commands.head?

/-- The first command with a given name. -/
def find? (p : Program) (name : String) : Option Command :=
  p.commands.find? fun c => c.name == name

end Program

end Karel
