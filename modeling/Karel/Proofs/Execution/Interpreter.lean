import Karel.Execution.Run

/-! # What a program does

The meaning of an executable, by recursion on its nodes and without a stack. A piece of a program
is given the steps that are left and a world, and has an `Effect`: how it ends, the steps it counts,
its actions in order and the world it leaves. A sequence goes from left to right, an action is
checked and then performed, a `repeat` is its body so many times, a condition is read from left to
right and no further than needed, and a call is the body of its target one level deeper.

Every piece uses up steps, so that what comes after it has no more of them left than it had. That is
what the recursion through loops and calls goes down on.
-/
namespace Karel
namespace Condition

/-- The value of a condition in a world. -/
def holds : Condition → World → Bool
  | .query q _, w => q.holds w
  | .not c, w => !c.holds w
  | .and l r, w => l.holds w && r.holds w
  | .or l r, w => l.holds w || r.holds w

/-- The queries that have to be asked for the value, from left to right. -/
def queries : Condition → World → Nat
  | .query _ _, _ => 1
  | .not c, w => c.queries w
  | .and l r, w => l.queries w + if l.holds w then r.queries w else 0
  | .or l r, w => l.queries w + if l.holds w then 0 else r.queries w

theorem queries_pos (c : Condition) (w : World) : 0 < c.queries w := by
  induction c with
  | query q p => exact Nat.one_pos
  | not c ih => exact ih
  | and l r ihl ihr => exact Nat.add_pos_left ihl _
  | or l r ihl ihr => exact Nat.add_pos_left ihl _

end Condition

/-- How a piece of a program ends: it is done and the next one goes on, it ends the whole run, or it
calls a routine that is not there. -/
inductive Ending where
  | done
  | stopped (outcome : Outcome)
  | lost (target : Nat)
  deriving DecidableEq

/-- What a piece of a program does. -/
structure Effect where
  ending : Ending
  steps : Nat
  trace : List Event
  world : World
  deriving DecidableEq

namespace Effect

/-- So many steps are counted and nothing else happens. -/
def counted (steps : Nat) (w : World) : Effect := ⟨.done, steps, [], w⟩

/-- A fault after so many steps. -/
def failed (steps : Nat) (w : World) (line : Nat) (cause : Fault.Cause) : Effect :=
  ⟨.stopped (.fault ⟨line, cause⟩), steps, [], w⟩

/-- An action that is performed. -/
def performed (p : Primitive) (line : Nat) (next : World) : Effect :=
  ⟨.done, 0, [⟨p, line, next⟩], next⟩

/-- One effect and then another, unless the first one is the end. -/
def andThen (r next : Effect) : Effect :=
  match r.ending with
  | .done => ⟨next.ending, r.steps + next.steps, r.trace ++ next.trace, next.world⟩
  | _ => r

/-- The report of a run that has a given effect; a run that calls a routine which is not there has
none. -/
def report? (r : Effect) : Option Report :=
  match r.ending with
  | .done => some ⟨.completed, r.steps, r.trace, r.world⟩
  | .stopped outcome => some ⟨outcome, r.steps, r.trace, r.world⟩
  | .lost _ => none

theorem counted_andThen (n : Nat) (w : World) (next : Effect) :
    (counted n w).andThen next = ⟨next.ending, n + next.steps, next.trace, next.world⟩ := rfl

@[simp] theorem counted_zero_andThen (w : World) (next : Effect) :
    (counted 0 w).andThen next = next := by
  rw [counted_andThen, Nat.zero_add]

theorem andThen_counted_zero (r : Effect) : r.andThen (counted 0 r.world) = r := by
  obtain ⟨ending, steps, trace, world⟩ := r
  cases ending with
  | done => simp [andThen, counted]
  | stopped outcome => rfl
  | lost target => rfl

theorem counted_andThen_counted (n k : Nat) (w : World) (next : Effect) :
    (counted n w).andThen ((counted k w).andThen next) = (counted (n + k) w).andThen next := by
  simp only [counted_andThen, Nat.add_assoc]

@[simp] theorem failed_andThen (n : Nat) (w : World) (line : Nat) (cause : Fault.Cause)
    (next : Effect) : (failed n w line cause).andThen next = failed n w line cause := rfl

theorem andThen_assoc (a b c : Effect) : (a.andThen b).andThen c = a.andThen (b.andThen c) := by
  obtain ⟨ending, steps, trace, world⟩ := a
  cases ending with
  | stopped outcome => rfl
  | lost target => rfl
  | done =>
    obtain ⟨ending', steps', trace', world'⟩ := b
    cases ending' with
    | stopped outcome => rfl
    | lost target => rfl
    | done => simp [andThen, Nat.add_assoc]

theorem trace_prefix_andThen (r next : Effect) : r.trace <+: (r.andThen next).trace := by
  unfold andThen
  split
  · exact List.prefix_append _ _
  · exact List.prefix_refl _

end Effect

namespace Executable

/-- Performs an action whose precondition holds. -/
def perform (p : Primitive) (line : Nat) (w : World) : Effect :=
  match p.check w with
  | .ok () => .performed p line (p.apply w)
  | .error cause => .failed 0 w line cause

/-- Does what a call asks for, given what the body of a routine does. -/
def callWith (e : Executable) (limits : Limits) (depth target line : Nat) (w : World)
    (body : List Node → Effect) : Effect :=
  match e.routines[target]? with
  | none => ⟨.lost target, 0, [], w⟩
  | some r =>
    if limits.depth ≤ depth then .failed 0 w line (.depthExceeded r.name limits.depth)
    else body r.body

mutual

/-- What a node does, with `depth` open calls and `left` steps left. -/
def evalNode (e : Executable) (limits : Limits) (depth : Nat) (node : Node) (left : Nat)
    (w : World) : Effect :=
  match left with
  | 0 => .failed 1 w node.line (.budgetExceeded limits.budget)
  | left + 1 =>
    (Effect.counted 1 w).andThen <|
      match node with
      | .action p line => perform p line w
      | .call target line =>
        e.callWith limits depth target line w fun body =>
          evalBlock e limits (depth + 1) body left w
      | .repeat count body _ => evalRepeat e limits depth body count left w
      | .if c yes no line =>
        if left < c.queries w then .failed (left + 1) w line (.budgetExceeded limits.budget)
        else
          (Effect.counted (c.queries w) w).andThen
            (evalBlock e limits depth (if c.holds w then yes else no) (left - c.queries w) w)
      | .while c body line => evalWhile e limits depth c body line left w
termination_by (left, 0)

/-- What a block does. -/
def evalBlock (e : Executable) (limits : Limits) (depth : Nat) (nodes : List Node) (left : Nat)
    (w : World) : Effect :=
  match nodes with
  | [] => .counted 0 w
  | node :: nodes =>
    let r := evalNode e limits depth node left w
    r.andThen (evalBlock e limits depth nodes (left - r.steps) r.world)
termination_by (left, nodes.length + 1)
decreasing_by
  · exact Prod.Lex.right _ (Nat.succ_pos _)
  · exact Prod.Lex.right' _ (Nat.sub_le _ _) (Nat.lt_succ_self _)

/-- What so many turns of a body do. -/
def evalRepeat (e : Executable) (limits : Limits) (depth : Nat) (body : List Node)
    (count left : Nat) (w : World) : Effect :=
  match count with
  | 0 => .counted 0 w
  | count + 1 =>
    let r := evalBlock e limits depth body left w
    r.andThen (evalRepeat e limits depth body count (left - r.steps) r.world)
termination_by (left, body.length + count + 2)
decreasing_by
  · exact Prod.Lex.right _ (by omega)
  · exact Prod.Lex.right' _ (Nat.sub_le _ _) (by omega)

/-- What a loop does, from the test of its condition on. -/
def evalWhile (e : Executable) (limits : Limits) (depth : Nat) (c : Condition) (body : List Node)
    (line left : Nat) (w : World) : Effect :=
  have := c.queries_pos w
  if left < c.queries w then .failed (left + 1) w line (.budgetExceeded limits.budget)
  else
    (Effect.counted (c.queries w) w).andThen <|
      if c.holds w then
        let r := evalBlock e limits depth body (left - c.queries w) w
        r.andThen (evalWhile e limits depth c body line (left - c.queries w - r.steps) r.world)
      else .counted 0 w
termination_by (left, 0)

end

/-- What an executable does in a world. The call of its entry is not counted. -/
def interpret (e : Executable) (limits : Limits) (w : World) : Effect :=
  match e.entryRoutine? with
  | none => ⟨.lost e.entry, 0, [], w⟩
  | some r =>
    e.callWith limits 0 e.entry r.line w fun body => evalBlock e limits 1 body limits.budget w

end Executable
end Karel
