import Karel.Source.Token
import Karel.Vocabulary

/-! # Diagnostics

What is wrong with a program is an `Issue`, a cause with the names and tokens it is about; a
`Diagnostic` adds the position. The code and the wording of every issue are given here and nowhere
else. Codes start with the phase that finds the issue: L for the text, P for its grammar, C for the
names in it.
-/

namespace Karel

inductive Expected where
  | keyword (word : Keyword)
  | symbol (symbol : Symbol)
  | identifier
  | number
  | condition
  deriving DecidableEq

def Expected.text : Expected → String
  | .keyword k => k.spelling
  | .symbol s => s.spelling
  | .identifier => "IDENTIFIER"
  | .number => "NUMBER"
  | .condition => "condition"

def leastCount : Nat := 2

def greatestCount : Nat := 32767

/-- The deepest nesting of blocks, `else if` links and condition operators. -/
def nestingLimit : Nat := 64

inductive Issue where
  /-- Text that is no token; the token brings its message. -/
  | invalidText (message : String)
  | extraBrace
  /-- A statement's keyword outside every command. -/
  | outsideCommand (word : Keyword)
  | callOutsideCommand (name : String)
  /-- A definition that lacks its `void`. -/
  | voidBefore (name : String)
  /-- Something else where a definition should start. -/
  | voidExpected (found : Token.Kind)
  | unclosedBlock
  | elseWithoutIf
  | illegalStart (found : Token.Kind)
  | nestedDefinition
  | voidCall
  | missing (what : Expected) (found : Token.Kind)
  /-- A repeat count that the grammar does not admit, as written. -/
  | countOutOfRange (digits : String)
  | danglingElse
  | notACondition (name : String)
  | tooDeep
  | undefinedCommand (name : String)
  | entryNotFound (name : String)
  | noEntry
  | duplicateCommand (name : String) (firstLine : Nat)
  | redefinedBuiltin (name : String)
  | conditionAsStatement (name : String)
  deriving DecidableEq

namespace Issue

def code : Issue → String
  | .invalidText _ => "L001"
  | .extraBrace | .voidBefore _ | .voidExpected _ | .elseWithoutIf | .illegalStart _ => "P001"
  | .unclosedBlock | .missing _ _ | .danglingElse => "P002"
  | .outsideCommand _ | .callOutsideCommand _ | .nestedDefinition | .voidCall => "P003"
  | .countOutOfRange _ => "P004"
  | .notACondition _ => "P005"
  | .tooDeep => "P006"
  | .undefinedCommand _ => "C001"
  | .entryNotFound _ | .noEntry => "C002"
  | .duplicateCommand _ _ => "C003"
  | .redefinedBuiltin _ => "C004"
  | .conditionAsStatement _ => "C005"

/-- The conditions to offer in place of a name that is none: the one related to an action, else all
of them. -/
def suggestion (name : String) : String :=
  match Primitive.ofName? name with
  | some p => s!"{p.hint.name}()"
  | none => ", ".intercalate (Query.all.map fun q => s!"{q.name}()")

def message : Issue → String
  | .invalidText message => message
  | .extraBrace => "too many closing braces"
  | .outsideCommand word => s!"{word.spelling} belongs inside command"
  | .callOutsideCommand name =>
    s!"Command calls belong inside command, move {name}() into a command body"
  | .voidBefore name => s!"expected void before {name}"
  | .voidExpected found => s!"expected void, found {found.label}"
  | .unclosedBlock => "unclosed block, this \x7b has no matching \x7d"
  | .elseWithoutIf => "else without matching if"
  | .illegalStart found => s!"illegal start of statement: {found.label}"
  | .nestedDefinition => "Command definitions cannot be nested"
  | .voidCall => "void is only for command definitions, calls need no void"
  | .missing what found => s!"missing {what.text} before {found.label}"
  | .countOutOfRange digits => s!"{digits} out of range [{leastCount}, {greatestCount}]"
  | .danglingElse => "else must be followed by \x7b or if"
  | .notACondition name =>
    s!"{name}() is not a condition. Did you mean a condition like {suggestion name}?"
  | .tooDeep => s!"nesting too deep, at most {nestingLimit} levels are allowed"
  | .undefinedCommand name => s!"undefined command {name}()"
  | .entryNotFound name => s!"entry command {name}() not found"
  | .noEntry => "program declares no entry command"
  | .duplicateCommand name firstLine =>
    s!"duplicate command {name}(), first declared on line {firstLine}"
  | .redefinedBuiltin name => s!"cannot redefine built-in {name}()"
  | .conditionAsStatement name => s!"{name}() is a condition, use it inside if or while"

end Issue

structure Diagnostic where
  issue : Issue
  position : Position
  deriving DecidableEq

def Diagnostic.text (d : Diagnostic) : String :=
  s!"[{d.issue.code}] {d.position.line}:{d.position.column}: {d.issue.message}"

end Karel
