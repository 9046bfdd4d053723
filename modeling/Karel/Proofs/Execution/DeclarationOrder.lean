import Karel.Proofs.Executable.Renumbering
import Karel.Proofs.Execution.Limits

/-! # The order of declarations

Executables that differ in the numbers of their routines do the same. What a node does is given by
recursion on the nodes, and a number is only ever used to get a routine; the routines at a number
and at the renumbered one have the same name and, but for their calls, the same body. So the order
in which commands are declared does not matter once it is said which of them is the entry.
-/
namespace Karel

namespace Executable
variable {σ : Nat → Nat} {e e' : Executable}

theorem Renumbered.callWith (h : e.Renumbered σ e') (limits : Limits) (depth target line : Nat)
    (w : World) {body body' : List Node → Effect}
    (hbody : ∀ nodes, body' (Node.renumberBlock σ nodes) = body nodes) :
    e'.callWith limits depth (σ target) line w body' =
      e.callWith limits depth target line w body := by
  unfold Executable.callWith
  cases hr : e.routines[target]? with
  | none =>
    obtain ⟨hσ, hr'⟩ := h.missing target hr
    rw [hσ, hr']
  | some r =>
    rw [h.routine target r hr]
    dsimp only
    rw [← hbody r.body]
    rfl

-- The recursion is the interpreter's own: a call and a further turn of a loop have fewer steps
-- left, the rest of a block and of a `repeat` have no more of them and are shorter.
mutual

theorem Renumbered.evalNode (h : e.Renumbered σ e') (limits : Limits) (depth : Nat) (node : Node)
    (left : Nat) (w : World) :
    evalNode e' limits depth (node.renumber σ) left w = evalNode e limits depth node left w := by
  cases left with
  | zero => rw [Executable.evalNode, Executable.evalNode, node.line_renumber]
  | succ left =>
    cases node with
    | action p line => rw [Node.renumber, Executable.evalNode, Executable.evalNode]
    | call target line =>
      have hbody (nodes : List Node) := h.evalBlock limits (depth + 1) nodes left w
      rw [Node.renumber, Executable.evalNode, Executable.evalNode]
      refine congrArg (Effect.andThen _) ?_
      exact h.callWith limits depth target line w hbody
    | «repeat» count body line =>
      have hrepeat := h.evalRepeat limits depth body count left w
      rw [Node.renumber, Executable.evalNode, Executable.evalNode, hrepeat]
    | «if» c yes no line =>
      have hyes := h.evalBlock limits depth yes (left - c.queries w) w
      have hno := h.evalBlock limits depth no (left - c.queries w) w
      rw [Node.renumber, Executable.evalNode, Executable.evalNode]
      cases c.holds w with
      | true => rw [if_pos rfl, if_pos rfl, hyes]
      | false => rw [if_neg Bool.false_ne_true, if_neg Bool.false_ne_true, hno]
    | «while» c body line =>
      have hwhile := h.evalWhile limits depth c body line left w
      rw [Node.renumber, Executable.evalNode, Executable.evalNode, hwhile]
termination_by (left, 0)

theorem Renumbered.evalBlock (h : e.Renumbered σ e') (limits : Limits) (depth : Nat)
    (nodes : List Node) (left : Nat) (w : World) :
    evalBlock e' limits depth (Node.renumberBlock σ nodes) left w =
      evalBlock e limits depth nodes left w := by
  cases nodes with
  | nil => rw [Node.renumberBlock, Executable.evalBlock, Executable.evalBlock]
  | cons node nodes =>
    have hnode := h.evalNode limits depth node left w
    have hnodes (steps : Nat) := h.evalBlock limits depth nodes (left - steps)
    rw [Node.renumberBlock, Executable.evalBlock, Executable.evalBlock, hnode, hnodes]
termination_by (left, nodes.length + 1)
decreasing_by
  · exact Prod.Lex.right _ (Nat.succ_pos _)
  · exact Prod.Lex.right' _ (Nat.sub_le _ _) (Nat.lt_succ_self _)

theorem Renumbered.evalRepeat (h : e.Renumbered σ e') (limits : Limits) (depth : Nat)
    (body : List Node) (count left : Nat) (w : World) :
    evalRepeat e' limits depth (Node.renumberBlock σ body) count left w =
      evalRepeat e limits depth body count left w := by
  cases count with
  | zero => rw [Executable.evalRepeat, Executable.evalRepeat]
  | succ count =>
    have hbody := h.evalBlock limits depth body left w
    have hrest (steps : Nat) := h.evalRepeat limits depth body count (left - steps)
    rw [Executable.evalRepeat, Executable.evalRepeat, hbody, hrest]
termination_by (left, body.length + count + 2)
decreasing_by
  · exact Prod.Lex.right _ (by omega)
  · exact Prod.Lex.right' _ (Nat.sub_le _ _) (by omega)

theorem Renumbered.evalWhile (h : e.Renumbered σ e') (limits : Limits) (depth : Nat)
    (c : Condition) (body : List Node) (line left : Nat) (w : World) :
    evalWhile e' limits depth c (Node.renumberBlock σ body) line left w =
      evalWhile e limits depth c body line left w := by
  have hpos := c.queries_pos w
  rw [Executable.evalWhile, Executable.evalWhile]
  by_cases hq : left < c.queries w
  · rw [if_pos hq, if_pos hq]
  · have hbody := h.evalBlock limits depth body (left - c.queries w) w
    have hrest (steps : Nat) :=
      h.evalWhile limits depth c body line (left - c.queries w - steps)
    rw [if_neg hq, if_neg hq, hbody]
    dsimp only
    rw [hrest]
termination_by (left, 0)

end

theorem Renumbered.interpret (h : e.Renumbered σ e') (limits : Limits) (w : World) :
    e'.interpret limits w = e.interpret limits w := by
  have hbody (nodes : List Node) := h.evalBlock limits 1 nodes limits.budget w
  unfold Executable.interpret entryRoutine?
  rw [h.entry]
  cases hr : e.routines[e.entry]? with
  | none =>
    obtain ⟨hσ, hr'⟩ := h.missing e.entry hr
    rw [hσ, hr']
  | some r =>
    rw [h.routine e.entry r hr]
    exact h.callWith limits 0 e.entry r.line w hbody

theorem Renumbered.report?_run (h : e.Renumbered σ e') (limits : Limits) (w : World) :
    (e'.run limits w).report? = (e.run limits w).report? := by
  rw [Executable.report?_run, Executable.report?_run, Machine.fate_start, Machine.fate_start,
    h.interpret]

end Executable

namespace Program

/-- Once the entry is named, the order in which commands are declared does not matter. A program
that compiles does so in every order, and in every world and under all limits the runs end alike:
with the same outcome, the line, the kind and the command of a fault included, after the same steps
and actions and in the same world. -/
theorem declaration_order_irrelevant {p p' : Program} {name : String} {e : Executable}
    (h : p.compile (some name) = .ok e) (hp : p'.commands.Perm p.commands) :
    ∃ e', p'.compile (some name) = .ok e' ∧
      ∀ limits w, ∃ r : Report,
        (e.run limits w).report? = some r ∧ (e'.run limits w).report? = some r := by
  obtain ⟨e', h'⟩ := exists_compile_of_perm hp h
  refine ⟨e', h', fun limits w => ?_⟩
  obtain ⟨r, hr⟩ := Executable.exists_report?_run h limits w
  have hsame := (renumbered_of_perm hp h h').report?_run limits w
  exact ⟨r, hr, hsame.trans hr⟩

/-- Two commands that call each other, the first one forward and the second one back. -/
def relay : Program where
  commands :=
    [⟨"main", [.call "turnLeft" ⟨2, 3⟩, .call "pass" ⟨3, 3⟩], ⟨1, 1⟩⟩,
      ⟨"pass", [.call "main" ⟨6, 3⟩], ⟨5, 1⟩⟩]

/-- The entry is the first routine in the one order and the second in the other. Either way the
robot turns twice before the fourth open call is one too many. -/
theorem relay_declaration_order_irrelevant :
    let turned : Program := ⟨relay.commands.reverse⟩
    ∃ e e' : Executable, relay.compile (some "main") = .ok e ∧
      turned.compile (some "main") = .ok e' ∧ e.entry = 0 ∧ e'.entry = 1 ∧
      ∃ r : Report, (e.run ⟨30, 3⟩ .empty).report? = some r ∧
        (e'.run ⟨30, 3⟩ .empty).report? = some r ∧
        r.outcome = .fault ⟨3, .depthExceeded "pass" 3⟩ ∧ r.trace.length = 2 := by
  intro turned
  let code : Executable :=
    ⟨0, [⟨"main", [.action .turnLeft 2, .call 1 3], 1⟩, ⟨"pass", [.call 0 6], 5⟩]⟩
  have h : relay.compile (some "main") = .ok code := rfl
  obtain ⟨e', h', hruns⟩ := declaration_order_irrelevant h (List.reverse_perm relay.commands)
  have hentry' : e'.entry = 1 := by
    cases h'
    rfl
  obtain ⟨r, hr, hr'⟩ := hruns ⟨30, 3⟩ .empty
  have hend : (code.run ⟨30, 3⟩ .empty).report?.map (fun r => (r.outcome, r.trace.length)) =
      some (.fault ⟨3, .depthExceeded "pass" 3⟩, 2) := by cbv
  rw [hr] at hend
  obtain ⟨houtcome, htrace⟩ := Prod.mk.inj (Option.some.inj hend)
  exact ⟨code, e', h, h', rfl, hentry', r, hr, hr', houtcome, htrace⟩

end Program

end Karel
