import Karel.Source.Program

/-! # Deciding a condition query by query

A condition is decided from left to right and no further than needed. `Condition.first` is the query
to ask next and `Condition.answer` what the answer leaves: the value of the condition, or a smaller
condition still to be decided.
-/

namespace Karel

/-- What is known about a condition after an answer. -/
inductive Verdict where
  | known (value : Bool)
  | pending (rest : Condition)

namespace Condition

def first : Condition → Query
  | .query q _ => q
  | .not c => c.first
  | .and l _ => l.first
  | .or l _ => l.first

/-- What the answer to the first query leaves. -/
def answer : Condition → Bool → Verdict
  | .query _ _, b => .known b
  | .not c, b =>
    match c.answer b with
    | .known v => .known !v
    | .pending c' => .pending (.not c')
  | .and l r, b =>
    match l.answer b with
    | .known true => .pending r
    | .known false => .known false
    | .pending l' => .pending (.and l' r)
  | .or l r, b =>
    match l.answer b with
    | .known true => .known true
    | .known false => .pending r
    | .pending l' => .pending (.or l' r)

end Condition

end Karel
