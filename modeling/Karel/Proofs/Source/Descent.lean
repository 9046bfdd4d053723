import Karel.Source.ReadProgram

/-! # Reading with an index and a counter

The readers hand a cursor on and take the levels that are left as an argument, so that they end by
the way they are built. A descent reads the same grammar with two variables instead: the index of a
token and the number of open levels. It sets them as it goes, it calls itself whatever their values
are, and its loops go on for as long as they find what they look for. Nothing in its text says that
it ends.

A descent is therefore given the number of calls that it may have open, a turn of a loop being a
call, and has no result at all if it would need more of them. It ends if its result is the same for
all numbers from some number on. An index without a token and a counter that would fall below zero
stop it. The trail keeps every value that the two variables have had.
-/
namespace Karel

structure Stand where
  index : Nat
  depth : Nat
  deriving DecidableEq

/-- The values now and the values before, the latest first. -/
structure Trail where
  now : Stand
  past : List Stand
  deriving DecidableEq

/-- What may stand between `void` and a block. -/
def Token.Kind.inHeader : Token.Kind → Bool
  | .ident _ | .symbol .openParen | .symbol .closeParen => true
  | _ => false

inductive Stop where
  | issue (diagnostic : Diagnostic)
  | outOfBounds
  | belowZero

abbrev Descent (α : Type) := ExceptT Stop (StateT Trail Option) α

namespace Descent

variable {α : Type} (tokens : List Token)

/-! ## Variables and tokens -/

def now : Descent Stand := return (← get).now

def go (s : Stand) : Descent Unit := modify fun t => ⟨s, t.now :: t.past⟩

def token : Descent Token := do
  match tokens[(← now).index]? with
  | some t => return t
  | none => throw .outOfBounds

def kind : Descent Token.Kind := return (← token tokens).kind

/-- The kind of a token ahead; beyond the last token everything is the end of the file. -/
def kindAt (n : Nat) : Descent Token.Kind :=
  return (tokens[(← now).index + n]?.map Token.kind).getD .eof

def position : Descent Position := return (← token tokens).position

def fail (issue : Issue) : Descent α := do
  throw (.issue ⟨issue, ← position tokens⟩)

def missing (what : Expected) : Descent α := do
  match ← kind tokens with
  | .invalid message => fail tokens (.invalidText message)
  | found => fail tokens (.missing what found)

/-- Goes on to the next token; the last one is never left. -/
def advance : Descent Unit := do
  let _ ← token tokens
  let s ← now
  if s.index + 1 < tokens.length then go { s with index := s.index + 1 }

def expect (k : Token.Kind) (what : Expected) : Descent Unit := do
  if (← kind tokens) = k then advance tokens else missing tokens what

def symbol (s : Symbol) : Descent Unit := expect tokens (.symbol s) (.symbol s)

def keyword (k : Keyword) : Descent Unit := expect tokens (.keyword k) (.keyword k)

def identifier : Descent String := do
  match ← kind tokens with
  | .ident name =>
    advance tokens
    return name
  | _ => missing tokens .identifier

/-! ## Levels -/

def descend : Descent Unit := do
  let s ← now
  if nestingLimit ≤ s.depth then fail tokens .tooDeep else go { s with depth := s.depth + 1 }

def ascend : Descent Unit := do
  let s ← now
  match s.depth with
  | 0 => throw .belowZero
  | d + 1 => go { s with depth := d }

/-- One level deeper; the level is given back whether `p` succeeds or not. -/
def nested (p : Descent α) : Descent α := do
  descend tokens
  let result ← ExceptT.lift p.run
  ascend
  MonadExcept.ofExcept result

/-- Levels opened by `p` are closed again if it succeeds. -/
def restoring (p : Descent α) : Descent α := do
  let outer ← now
  let a ← p
  go { (← now) with depth := outer.depth }
  return a

def exhausted : Descent α := fun _ => none

/-! ## Conditions -/

def query (name : String) : Descent Condition := do
  let position ← position tokens
  match Query.ofName? name with
  | some q =>
    advance tokens
    symbol tokens .openParen
    symbol tokens .closeParen
    return .query q position
  | none => fail tokens (.notACondition name)

mutual

def condition : Nat → Descent Condition
  | 0 => exhausted
  | calls + 1 => restoring do
    let left ← conjunction calls
    disjuncts calls left

/-- Goes on for as long as there is another `||`. -/
def disjuncts : Nat → Condition → Descent Condition
  | 0, _ => exhausted
  | calls + 1, left => do
    if (← kind tokens) = .symbol .orOr then
      advance tokens
      descend tokens
      let right ← conjunction calls
      disjuncts calls (.or left right)
    else return left

def conjunction : Nat → Descent Condition
  | 0 => exhausted
  | calls + 1 => restoring do
    let left ← operand calls
    conjuncts calls left

def conjuncts : Nat → Condition → Descent Condition
  | 0, _ => exhausted
  | calls + 1, left => do
    if (← kind tokens) = .symbol .andAnd then
      advance tokens
      descend tokens
      let right ← operand calls
      conjuncts calls (.and left right)
    else return left

def operand : Nat → Descent Condition
  | 0 => exhausted
  | calls + 1 => do
    match ← kind tokens with
    | .symbol .bang =>
      advance tokens
      let inner ← nested tokens (operand calls)
      return .not inner
    | .symbol .openParen =>
      advance tokens
      let inner ← nested tokens (condition calls)
      symbol tokens .closeParen
      return inner
    | .ident name => query tokens name
    | .invalid message => fail tokens (.invalidText message)
    | _ => missing tokens .condition

end

/-! ## Statements -/

def count : Descent Nat := do
  match ← kind tokens with
  | .number digits =>
    match repeatCount? digits with
    | some value =>
      advance tokens
      return value
    | none => fail tokens (.countOutOfRange digits)
  | _ => missing tokens .number

/-- Goes on for as long as a token, from the `n`th ahead on, can be part of a header. -/
def headerEnd : Nat → Nat → Descent Nat
  | 0, _ => exhausted
  | calls + 1, n => do
    if (← kindAt tokens n).inHeader then headerEnd calls (n + 1) else return n

def strayVoid (calls : Nat) : Descent α := do
  let n ← headerEnd tokens calls 1
  if (← kindAt tokens n) = .symbol .openBrace then fail tokens .nestedDefinition
  else fail tokens .voidCall

def callStatement (name : String) : Descent Statement := do
  let position ← position tokens
  advance tokens
  symbol tokens .openParen
  symbol tokens .closeParen
  symbol tokens .semicolon
  return .call name position

mutual

def block : Nat → Descent (List Statement)
  | 0 => exhausted
  | calls + 1 => nested tokens (braced calls)

def braced : Nat → Descent (List Statement)
  | 0 => exhausted
  | calls + 1 => do
    let opening ← position tokens
    symbol tokens .openBrace
    statements calls opening

/-- Goes on until the block is closed or the file ends. -/
def statements : Nat → Position → Descent (List Statement)
  | 0, _ => exhausted
  | calls + 1, opening => do
    match ← kind tokens with
    | .symbol .closeBrace =>
      advance tokens
      return []
    | .eof => throw (.issue ⟨.unclosedBlock, opening⟩)
    | _ =>
      let s ← statement calls
      let ss ← statements calls opening
      return s :: ss

def statement : Nat → Descent Statement
  | 0 => exhausted
  | calls + 1 => do
    match ← kind tokens with
    | .ident name => callStatement tokens name
    | .keyword .repeat => repeatStatement calls
    | .keyword .if => ifStatement calls
    | .keyword .while => whileStatement calls
    | .keyword .void => strayVoid tokens calls
    | .keyword .else => fail tokens .elseWithoutIf
    | .invalid message => fail tokens (.invalidText message)
    | found => fail tokens (.illegalStart found)

def repeatStatement : Nat → Descent Statement
  | 0 => exhausted
  | calls + 1 => do
    let position ← position tokens
    keyword tokens .repeat
    symbol tokens .openParen
    let n ← count tokens
    symbol tokens .closeParen
    let body ← block calls
    return .repeat n body position

def whileStatement : Nat → Descent Statement
  | 0 => exhausted
  | calls + 1 => do
    let position ← position tokens
    keyword tokens .while
    symbol tokens .openParen
    let c ← condition tokens calls
    symbol tokens .closeParen
    let body ← block calls
    return .while c body position

def ifStatement : Nat → Descent Statement
  | 0 => exhausted
  | calls + 1 => do
    let position ← position tokens
    keyword tokens .if
    symbol tokens .openParen
    let c ← condition tokens calls
    symbol tokens .closeParen
    let yes ← block calls
    if (← kind tokens) = .keyword .else then
      advance tokens
      match ← kind tokens with
      | .symbol .openBrace =>
        let no ← block calls
        return .ifElse c yes no position
      | .keyword .if =>
        let link ← nested tokens (ifStatement calls)
        return .ifElse c yes [link] position
      | _ => fail tokens .danglingElse
    else return .if c yes position

end

/-! ## Programs -/

def command (calls : Nat) : Descent Command := do
  let position ← position tokens
  keyword tokens .void
  let name ← identifier tokens
  symbol tokens .openParen
  symbol tokens .closeParen
  let body ← block tokens calls
  return ⟨name, body, position⟩

/-- Why the current token cannot start a definition. -/
def strayAtTop : Descent α := do
  match ← kind tokens with
  | .symbol .closeBrace => fail tokens .extraBrace
  | .keyword .repeat => fail tokens (.outsideCommand .repeat)
  | .keyword .while => fail tokens (.outsideCommand .while)
  | .keyword .if => fail tokens (.outsideCommand .if)
  | .keyword .else => fail tokens (.outsideCommand .else)
  | .invalid message => fail tokens (.invalidText message)
  | .ident name =>
    if (← kindAt tokens 1) = .symbol .openParen && (← kindAt tokens 2) = .symbol .closeParen
        && (← kindAt tokens 3) = .symbol .semicolon
    then fail tokens (.callOutsideCommand name) else fail tokens (.voidBefore name)
  | found => fail tokens (.voidExpected found)

/-- Goes on until the file ends. -/
def commands : Nat → List Command → Descent (List Command)
  | 0, _ => exhausted
  | calls + 1, before => do
    match ← kind tokens with
    | .eof => if before.isEmpty then strayAtTop tokens else return before
    | .keyword .void =>
      let c ← command tokens calls
      commands calls (before ++ [c])
    | _ => strayAtTop tokens

def program (calls : Nat) : Descent Program := return ⟨← commands tokens calls []⟩

def start : Trail := ⟨⟨0, 0⟩, []⟩

end Descent
end Karel
