import Karel.Source.ReadCondition
import Karel.Text.Numeral

/-! # Reading statements

The grammar of statements:

* a block is `{`, statements and `}`;
* a statement is a call, a `repeat` with its count and a block, an `if` with its condition and a
  block, perhaps with an `else` and a block or another `if`, or a `while` with its condition and a
  block.

A block and an `else if` link use up one nesting level. `Level.ofNat n` holds the readers of both
when `n` levels are left; they are built from those with one level less.
-/

namespace Karel

/-- The value of a repeat count as written, if the grammar admits it. Leading zeros are dropped
first; what is left and takes more than five bytes, or is no numeral, is out of range. -/
def repeatCount? (digits : String) : Option Nat :=
  let significant := digits.toList.dropWhile (· == '0')
  if 5 < Text.byteLength significant then none
  else
    match Text.readNumeral 0xffffffff significant with
    | .ok value => if leastCount ≤ value ∧ value ≤ greatestCount then some value else none
    | .error _ => none

namespace Reader

def count : Reader Nat := fun c =>
  match c.kind with
  | .number digits =>
    match repeatCount? digits with
    | some value => .ok (value, c.advance)
    | none => .error ⟨.countOutOfRange digits, c.position⟩
  | _ => missing .number c

/-- A `void` inside a command starts a definition if a block follows its name and parentheses;
otherwise it stands before a call. -/
def strayVoid (c : Cursor) : Issue :=
  let header (t : Token) : Bool :=
    match t.kind with
    | .ident _ | .symbol .openParen | .symbol .closeParen => true
    | _ => false
  match (c.rest.dropWhile header).head? with
  | some ⟨.symbol .openBrace, _⟩ => .nestedDefinition
  | _ => .voidCall

/-- The statements up to the brace that closes the block opened at `opening`. -/
def statements (statement : Mover Statement) (opening : Position) (c : Cursor) :
    Except Diagnostic (List Statement × Cursor) :=
  match c.kind with
  | .symbol .closeBrace => .ok ([], c.advance)
  | .eof => .error ⟨.unclosedBlock, opening⟩
  | _ =>
    match h : statement.read c with
    | .error d => .error d
    | .ok (s, c') =>
      have := statement.moves c c' s h
      match statements statement opening c' with
      | .error d => .error d
      | .ok (ss, c'') => .ok (s :: ss, c'')
termination_by c.remaining

def braced (statement : Mover Statement) : Reader (List Statement) := do
  let opening ← position
  symbol .openBrace
  statements statement opening

def callStatement : Reader Statement := do
  let position ← position
  let name ← identifier
  symbol .openParen
  symbol .closeParen
  symbol .semicolon
  return .call name position

def repeatStatement (block : Mover (List Statement)) : Reader Statement := do
  let position ← position
  keyword .repeat
  symbol .openParen
  let count ← count
  symbol .closeParen
  let body ← block.read
  return .repeat count body position

def whileStatement (levels : Nat) (block : Mover (List Statement)) : Reader Statement := do
  let position ← position
  keyword .while
  symbol .openParen
  let condition ← condition levels
  symbol .closeParen
  let body ← block.read
  return .while condition body position

/-- What may follow the first block of an `if`: nothing, or an `else` with a block or with another
`if`. -/
def elsePart (block : Mover (List Statement)) (elseIf : Mover Statement) (condition : Condition)
    (yes : List Statement) (position : Position) : Reader Statement := do
  if (← peek) = .keyword .else then
    advance
    match ← peek with
    | .symbol .openBrace =>
      let no ← block.read
      return .ifElse condition yes no position
    | .keyword .if =>
      let link ← elseIf.read
      return .ifElse condition yes [link] position
    | _ => fail .danglingElse
  else return .if condition yes position

def ifStatement (levels : Nat) (block : Mover (List Statement)) (elseIf : Mover Statement) :
    Reader Statement := do
  let position ← position
  keyword .if
  symbol .openParen
  let condition ← condition levels
  symbol .closeParen
  let yes ← block.read
  elsePart block elseIf condition yes position

def statement (levels : Nat) (block : Mover (List Statement)) (elseIf : Mover Statement) :
    Reader Statement := do
  match ← peek with
  | .ident _ => callStatement
  | .keyword .repeat => repeatStatement block
  | .keyword .if => ifStatement levels block elseIf
  | .keyword .while => whileStatement levels block
  | .keyword .void => fun c => fail (strayVoid c) c
  | .keyword .else => fail .elseWithoutIf
  | .invalid message => fail (.invalidText message)
  | found => fail (.illegalStart found)

theorem count_keepsBehind : KeepsBehind count := by
  intro c d a h
  unfold count at h
  split at h
  · split at h
    · cases h
      exact c.remaining_advance_le
    · cases h
  · exact absurd h (missing_ne_ok _ _ _)

theorem statements_remaining {statement : Mover Statement} {opening : Position} {c d : Cursor}
    {ss : List Statement} (h : statements statement opening c = .ok (ss, d)) :
    d.remaining ≤ c.remaining ∧
      (c.kind ≠ .symbol .closeBrace → d.remaining < c.remaining) := by
  fun_induction statements statement opening c generalizing ss d with
  | case1 c hk =>
    cases h
    exact ⟨c.remaining_advance_le, fun hn => absurd hk hn⟩
  | case2 => cases h
  | case3 => cases h
  | case4 => cases h
  | case5 c s c' hs hlt ss' c'' hss _ _ ih =>
    cases h
    have h2 := (ih hss).1
    exact ⟨by omega, fun _ => by omega⟩

theorem braced_moves (statement : Mover Statement) : Moves (braced statement) := by
  refine position_keepsBehind.bind_moves fun opening => ?_
  intro c d ss h
  obtain ⟨_, e, he, h⟩ := bind_eq_ok.1 h
  obtain ⟨hk, rfl⟩ := symbol_eq_ok.1 he
  have hs := statements_remaining h
  have ha := c.remaining_advance_le
  by_cases hb : c.advance.kind = .symbol .closeBrace
  · have := Cursor.remaining_advance_lt (c := c) (by simp [hk, hb])
    omega
  · have := hs.2 hb
    omega

theorem callStatement_moves : Moves callStatement :=
  position_keepsBehind.bind_moves fun _ => identifier_symbol_moves fun _ =>
    (symbol_keepsBehind _).bind fun _ => (symbol_keepsBehind _).bind fun _ => pure_keepsBehind _

theorem repeatStatement_moves (block : Mover (List Statement)) : Moves (repeatStatement block) :=
  position_keepsBehind.bind_moves fun _ => keyword_symbol_moves <|
    count_keepsBehind.bind fun _ => (symbol_keepsBehind _).bind fun _ =>
      block.moves.keepsBehind.bind fun _ => pure_keepsBehind _

theorem whileStatement_moves (levels : Nat) (block : Mover (List Statement)) :
    Moves (whileStatement levels block) :=
  position_keepsBehind.bind_moves fun _ => keyword_symbol_moves <|
    (condition_keepsBehind levels).bind fun _ => (symbol_keepsBehind _).bind fun _ =>
      block.moves.keepsBehind.bind fun _ => pure_keepsBehind _

theorem elsePart_keepsBehind (block : Mover (List Statement)) (elseIf : Mover Statement)
    (condition : Condition) (yes : List Statement) (p : Position) :
    KeepsBehind (elsePart block elseIf condition yes p) := by
  refine peek_keepsBehind.bind fun kind => ?_
  split
  · refine advance_keepsBehind.bind fun _ => peek_keepsBehind.bind fun kind => ?_
    split
    · exact block.moves.keepsBehind.bind fun _ => pure_keepsBehind _
    · exact elseIf.moves.keepsBehind.bind fun _ => pure_keepsBehind _
    · exact (fail_moves _).keepsBehind
  · exact pure_keepsBehind _

theorem ifStatement_moves (levels : Nat) (block : Mover (List Statement))
    (elseIf : Mover Statement) : Moves (ifStatement levels block elseIf) :=
  position_keepsBehind.bind_moves fun _ => keyword_symbol_moves <|
    (condition_keepsBehind levels).bind fun _ => (symbol_keepsBehind _).bind fun _ =>
      block.moves.keepsBehind.bind fun _ => elsePart_keepsBehind _ _ _ _ _

theorem statement_moves (levels : Nat) (block : Mover (List Statement))
    (elseIf : Mover Statement) : Moves (statement levels block elseIf) := by
  refine peek_keepsBehind.bind_moves fun kind => ?_
  split
  · exact callStatement_moves
  · exact repeatStatement_moves _
  · exact ifStatement_moves _ _ _
  · exact whileStatement_moves _ _
  · exact fun c d a h => fail_moves _ c d a h
  · exact fail_moves _
  · exact fail_moves _
  · exact fail_moves _

end Reader

/-- The readers that go one level deeper. -/
structure Level where
  block : Mover (List Statement)
  elseIf : Mover Statement

namespace Level

def none : Level where
  block := ⟨Reader.tooDeep, Reader.fail_moves _⟩
  elseIf := ⟨Reader.tooDeep, Reader.fail_moves _⟩

/-- The level above one with `levels` levels left. -/
def above (levels : Nat) (below : Level) : Level where
  block := ⟨Reader.braced
      ⟨Reader.statement levels below.block below.elseIf, Reader.statement_moves _ _ _⟩,
    Reader.braced_moves _⟩
  elseIf := ⟨Reader.ifStatement levels below.block below.elseIf, Reader.ifStatement_moves _ _ _⟩

/-- The readers that go one level deeper when `levels` levels are left. -/
def ofNat : Nat → Level
  | 0 => .none
  | n + 1 => above n (ofNat n)

end Level

end Karel
