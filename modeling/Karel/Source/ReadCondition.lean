import Karel.Source.Cursor
import Karel.Source.Program

/-! # Reading conditions

The grammar of conditions:

* a condition is a chain of conjunctions joined by `||`, a conjunction a chain of operands joined by
  `&&`, both grouped from the left;
* an operand is `!` and an operand, a condition in parentheses, or a query with empty parentheses.

The readers take the number of nesting levels that are left. The operand of `!`, a pair of
parentheses and every operator of a chain use up one level, so the number of levels is what the
recursion goes down on. The levels used by a chain are free again after it.
-/

namespace Karel.Reader

/-- A query: the name of a condition with empty parentheses. -/
def query (name : String) : Reader Condition :=
  match Query.ofName? name with
  | some q => do
    let position ← position
    advance
    symbol .openParen
    symbol .closeParen
    return .query q position
  | none => fail (.notACondition name)

/-- An operand, given the readers for what follows `!` and for what stands in parentheses. -/
def operandWith (negated grouped : Reader Condition) : Reader Condition := do
  match ← peek with
  | .symbol .bang =>
    advance
    let operand ← negated
    return .not operand
  | .symbol .openParen =>
    advance
    let inner ← grouped
    symbol .closeParen
    return inner
  | .ident name => query name
  | .invalid message => fail (.invalidText message)
  | _ => missing .condition

/-- Goes on with `more` after a given operator, and is done if there is none. -/
def tailWith (operator : Symbol) (left : Condition) (more : Reader Condition) :
    Reader Condition := do
  if (← peek) = .symbol operator then
    advance
    more
  else return left

mutual

/-- An operand of a chain, with `levels` levels left. -/
def operand (levels : Nat) : Reader Condition :=
  match levels with
  | 0 => operandWith tooDeep tooDeep
  | n + 1 => operandWith (operand n) (do
      let first ← operand n
      let left ← conjunctionTail n first
      conditionTail n left)

/-- The rest of a conjunction whose left part has been read. -/
def conjunctionTail (levels : Nat) (left : Condition) : Reader Condition :=
  match levels with
  | 0 => tailWith .andAnd left tooDeep
  | n + 1 => tailWith .andAnd left (do
      let right ← operand n
      conjunctionTail n (.and left right))

def conditionTail (levels : Nat) (left : Condition) : Reader Condition :=
  match levels with
  | 0 => tailWith .orOr left tooDeep
  | n + 1 => tailWith .orOr left (do
      let first ← operand n
      let right ← conjunctionTail n first
      conditionTail n (.or left right))

end

def conjunction (levels : Nat) : Reader Condition := do
  let first ← operand levels
  conjunctionTail levels first

def condition (levels : Nat) : Reader Condition := do
  let first ← conjunction levels
  conditionTail levels first

theorem query_keepsBehind (name : String) : KeepsBehind (query name) := by
  unfold query
  split
  · exact position_keepsBehind.bind fun _ => advance_keepsBehind.bind fun _ =>
      (symbol_keepsBehind _).bind fun _ => (symbol_keepsBehind _).bind fun _ =>
        pure_keepsBehind _
  · exact (fail_moves _).keepsBehind

theorem operandWith_keepsBehind {negated grouped : Reader Condition} (hn : KeepsBehind negated)
    (hg : KeepsBehind grouped) : KeepsBehind (operandWith negated grouped) := by
  refine peek_keepsBehind.bind fun kind => ?_
  split
  · exact advance_keepsBehind.bind fun _ => hn.bind fun _ => pure_keepsBehind _
  · exact advance_keepsBehind.bind fun _ => hg.bind fun _ =>
      (symbol_keepsBehind _).bind fun _ => pure_keepsBehind _
  · exact query_keepsBehind _
  · exact (fail_moves _).keepsBehind
  · exact (missing_moves _).keepsBehind

theorem tailWith_keepsBehind {operator : Symbol} {left : Condition} {more : Reader Condition}
    (hm : KeepsBehind more) : KeepsBehind (tailWith operator left more) := by
  refine peek_keepsBehind.bind fun kind => ?_
  split
  · exact advance_keepsBehind.bind fun _ => hm
  · exact pure_keepsBehind _

theorem tooDeep_keepsBehind {α : Type} : KeepsBehind (tooDeep : Reader α) :=
  (fail_moves _).keepsBehind

theorem levels_keepBehind (levels : Nat) :
    KeepsBehind (operand levels) ∧ (∀ left, KeepsBehind (conjunctionTail levels left)) ∧
      ∀ left, KeepsBehind (conditionTail levels left) := by
  induction levels with
  | zero =>
    refine ⟨?_, fun left => ?_, fun left => ?_⟩
    · exact operandWith_keepsBehind tooDeep_keepsBehind tooDeep_keepsBehind
    · exact tailWith_keepsBehind tooDeep_keepsBehind
    · exact tailWith_keepsBehind tooDeep_keepsBehind
  | succ n ih =>
    obtain ⟨ho, hc, hd⟩ := ih
    refine ⟨?_, fun left => ?_, fun left => ?_⟩
    · exact operandWith_keepsBehind ho (ho.bind fun _ => (hc _).bind fun _ => hd _)
    · exact tailWith_keepsBehind (ho.bind fun _ => hc _)
    · exact tailWith_keepsBehind (ho.bind fun _ => (hc _).bind fun _ => hd _)

theorem condition_keepsBehind (levels : Nat) : KeepsBehind (condition levels) := by
  obtain ⟨ho, hc, hd⟩ := levels_keepBehind levels
  exact (ho.bind fun _ => hc _).bind fun _ => hd _

end Karel.Reader
