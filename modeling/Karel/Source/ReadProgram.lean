import Karel.Source.ReadStatement
import Karel.Source.Lexeme

/-! # Reading programs

A program is one command or more and nothing else; a command is `void`, a name, empty parentheses
and a block. `Program.read` gives the tree of a list of tokens or the first issue in it,
`Program.parse` does so for a source text.
-/

namespace Karel

namespace Reader

/-- The definition of a command, with some levels left for its body. -/
def commandWith (levels : Nat) : Reader Command := do
  let position ← position
  keyword .void
  let name ← identifier
  symbol .openParen
  symbol .closeParen
  let body ← (Level.ofNat levels).block.read
  return ⟨name, body, position⟩

def command : Reader Command := commandWith nestingLimit

def headsCall (c : Cursor) : Bool :=
  c.kindAt 1 = .symbol .openParen && c.kindAt 2 = .symbol .closeParen
    && c.kindAt 3 = .symbol .semicolon

/-- Why the token under the cursor cannot start a definition. -/
def strayAtTop (c : Cursor) : Issue :=
  match c.kind with
  | .symbol .closeBrace => .extraBrace
  | .keyword .repeat => .outsideCommand .repeat
  | .keyword .while => .outsideCommand .while
  | .keyword .if => .outsideCommand .if
  | .keyword .else => .outsideCommand .else
  | .invalid message => .invalidText message
  | .ident name => if headsCall c then .callOutsideCommand name else .voidBefore name
  | found => .voidExpected found

theorem command_moves : Moves command :=
  position_keepsBehind.bind_moves fun _ => keyword_identifier_moves fun _ =>
    (symbol_keepsBehind _).bind fun _ => (symbol_keepsBehind _).bind fun _ =>
      (Level.ofNat nestingLimit).block.moves.keepsBehind.bind fun _ => pure_keepsBehind _

/-- The commands up to the end of the file. -/
def commands (c : Cursor) : Except Diagnostic (List Command) :=
  match c.kind with
  | .eof => .ok []
  | .keyword .void =>
    match h : command c with
    | .error d => .error d
    | .ok (first, c') =>
      have := command_moves c c' first h
      match commands c' with
      | .error d => .error d
      | .ok others => .ok (first :: others)
  | _ => .error ⟨strayAtTop c, c.position⟩
termination_by c.remaining

end Reader

namespace Program

/-- The program that starts under the cursor. An empty file is no program. -/
def read (c : Cursor) : Except Diagnostic Program :=
  if c.kind = .eof then .error ⟨Reader.strayAtTop c, c.position⟩
  else (Reader.commands c).map Program.mk

/-- The program of a list of tokens. Without any token there is nothing to say, not even an issue.
-/
def ofTokens? (tokens : List Token) : Option (Except Diagnostic Program) :=
  (Cursor.ofList? tokens).map read

def parse (source : String) : Except Diagnostic Program :=
  match h : tokenize source with
  | [] => absurd h (tokensFrom_ne_nil _ _)
  | t :: ts => read ⟨t, ts⟩

theorem ofTokens?_tokenize (source : String) :
    ofTokens? (tokenize source) = some (parse source) := by
  unfold parse
  split
  · next h => exact absurd h (tokensFrom_ne_nil _ _)
  · next h => rw [h]; rfl

end Program

end Karel
