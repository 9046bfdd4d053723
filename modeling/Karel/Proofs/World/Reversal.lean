import Karel.Proofs.Execution.StraightLine
import Karel.Proofs.Execution.Walk
import Karel.Proofs.Grid.CellSet
import Karel.Proofs.Grid.Edges

/-! # Actions can be taken back

Every action that was allowed can be undone by actions that are then allowed: a turn by the opposite
turn, a beeper by putting it back or picking it up, and a step ahead by turning around, stepping and
turning around again. For the step this takes a floor plan whose walls are the same from both sides,
which every plan is that was constructed from the empty one. So the way back from the end of a list
of actions is the list from its end, each action undone, and it leads to the very world at the
start.
-/
namespace Karel

namespace Primitive

/-- The actions that take an action back. -/
def undo : Primitive → List Primitive
  | .moveForward => [.turnAround, .moveForward, .turnAround]
  | .turnLeft => [.turnRight]
  | .turnRight => [.turnLeft]
  | .turnAround => [.turnAround]
  | .pickBeeper => [.dropBeeper]
  | .dropBeeper => [.pickBeeper]

end Primitive

/-- Both cells at an edge say the same about the wall on it. -/
def FloorPlan.TwoSided (p : FloorPlan) : Prop :=
  ∀ (a b : Cell) (d : Direction), a.neighbour? d = some b → p.hasWall b d.opposite = p.hasWall a d

namespace World
variable {w v u : World} {as bs : List Primitive}

/-- Some actions lead from one world to another, and each is allowed where it is performed. -/
structure Leads (w : World) (as : List Primitive) (v : World) : Prop where
  allows : w.Allows as
  after : w.afterActions as = v

theorem Leads.append (h : w.Leads as v) (h' : v.Leads bs u) : w.Leads (as ++ bs) u := by
  obtain ⟨hallows, rfl⟩ := h
  refine ⟨(allows_append w as bs).2 ⟨hallows, h'.allows⟩, ?_⟩
  rw [afterActions, List.foldl_append]
  exact h'.after

theorem turnAround_turnAround (w : World) : w.turnAround.turnAround = w := by
  obtain ⟨⟨cell, direction⟩, beepers, plan⟩ := w
  exact congrArg (fun d => (⟨⟨cell, d⟩, beepers, plan⟩ : World)) direction.opposite_opposite

/-- There is a way back over an edge without a wall. -/
theorem leads_back_moveForward (hp : w.plan.TwoSided) (h : w.frontIsClear = true) :
    w.moveForward.Leads Primitive.moveForward.undo w := by
  obtain ⟨⟨a, d⟩, beepers, plan⟩ := w
  change (!plan.hasWall a d && (a.neighbour? d).isSome) = true at h
  rw [Bool.and_eq_true, Bool.not_eq_true', Option.isSome_iff_exists] at h
  obtain ⟨hwall, b, hb⟩ := h
  have hback : b.neighbour? d.opposite = some a := Cell.neighbour?_opposite hb
  have hwall' : plan.hasWall b d.opposite = false := (hp a b d hb).trans hwall
  have hmove : moveForward ⟨⟨a, d⟩, beepers, plan⟩ = ⟨⟨b, d⟩, beepers, plan⟩ := by
    simp only [moveForward, cell, direction, hb]
  have hreturn : moveForward ⟨⟨b, d.opposite⟩, beepers, plan⟩ =
      ⟨⟨a, d.opposite⟩, beepers, plan⟩ := by
    simp only [moveForward, cell, direction, hback]
  have hclear : frontIsClear ⟨⟨b, d.opposite⟩, beepers, plan⟩ = true := by
    simp [frontIsClear, isClear, cell, direction, hwall', hback]
  rw [hmove]
  refine ⟨⟨rfl, if_pos hclear, rfl, trivial⟩, ?_⟩
  change (moveForward ⟨⟨b, d.opposite⟩, beepers, plan⟩).turnAround = _
  rw [hreturn]
  exact turnAround_turnAround ⟨⟨a, d⟩, beepers, plan⟩

/-- An action that is allowed can be taken back. -/
theorem leads_back (hp : w.plan.TwoSided) {a : Primitive} (h : a.check w = .ok ()) :
    (a.apply w).Leads a.undo w := by
  obtain ⟨⟨cell, direction⟩, beepers, plan⟩ := w
  cases a with
  | moveForward => exact leads_back_moveForward hp (Primitive.frontIsClear_of_check h)
  | turnLeft =>
    refine ⟨⟨rfl, trivial⟩, ?_⟩
    exact congrArg (fun d => (⟨⟨cell, d⟩, beepers, plan⟩ : World)) direction.right_left
  | turnRight =>
    refine ⟨⟨rfl, trivial⟩, ?_⟩
    exact congrArg (fun d => (⟨⟨cell, d⟩, beepers, plan⟩ : World)) direction.left_right
  | turnAround => exact ⟨⟨rfl, trivial⟩, turnAround_turnAround _⟩
  | pickBeeper =>
    have hon : beepers.contains cell = true := by
      simp only [Primitive.check] at h
      split at h
      · assumption
      · cases h
    refine ⟨⟨if_neg ?_, trivial⟩, ?_⟩
    · exact Bool.eq_false_iff.1 (beepers.contains_erase cell)
    · exact congrArg (fun b => (⟨⟨cell, direction⟩, b, plan⟩ : World)) (Beepers.insert_erase hon)
  | dropBeeper =>
    have hoff : beepers.contains cell = false := by
      simp only [Primitive.check] at h
      split at h
      · cases h
      · next hon => exact Bool.eq_false_iff.2 hon
    refine ⟨⟨if_pos (beepers.contains_insert cell), trivial⟩, ?_⟩
    exact congrArg (fun b => (⟨⟨cell, direction⟩, b, plan⟩ : World)) (Beepers.erase_insert hoff)

/-- The way back from the end of some actions: each is taken back, the last one first. -/
def wayBack (as : List Primitive) : List Primitive := as.reverse.flatMap Primitive.undo

theorem leads_wayBack (hp : w.plan.TwoSided) (h : w.Allows as) :
    (w.afterActions as).Leads (wayBack as) w := by
  induction as generalizing w with
  | nil => exact ⟨trivial, rfl⟩
  | cons a as ih =>
    obtain ⟨ha, has⟩ := h
    have hplan : (a.apply w).plan.TwoSided := by
      rw [a.plan_apply]
      exact hp
    -- The first action is taken back last, from the world that the others are taken back to.
    have hsplit : wayBack (a :: as) = wayBack as ++ a.undo := by simp [wayBack]
    rw [hsplit]
    exact (ih hplan has).append (leads_back hp ha)

/-- Actions are reversible. On a floor plan that was constructed in any steps, actions that lead
from one world to another, each of them allowed where it is performed, can be taken back by actions
that are allowed in turn and that lead to the very world at the start: the robot's place and
direction, both words of the beepers and the floor plan are as they were. -/
theorem actions_reversible {steps : List FloorPlan.Step} (hp : w.plan = .built steps)
    (h : w.Leads as v) : v.Leads (wayBack as) w := by
  obtain ⟨hallows, rfl⟩ := h
  refine leads_wayBack ?_ hallows
  intro a b d hd
  rw [hp]
  exact FloorPlan.hasWall_built_opposite steps hd

/-- The robot on the last cell of the low word, with a wall behind it. -/
def atBoundary : World where
  pose := ⟨⟨3, 6⟩, .east⟩
  beepers := .empty
  plan := .built [.change (.vertical 3 6), .change (.horizontal 40 2), .reopen]

/-- It puts a beeper down there and one on the next cell, which is the first of the high word, and
takes both back. -/
theorem atBoundary_actions_reversible :
    ∃ v, atBoundary.Leads [.dropBeeper, .moveForward, .dropBeeper, .turnLeft] v ∧
      v.beepers = ⟨0x8000000000000000, 1⟩ ∧
      v.Leads [.turnRight, .pickBeeper, .turnAround, .moveForward, .turnAround, .pickBeeper]
        atBoundary := by
  have h : atBoundary.Leads [.dropBeeper, .moveForward, .dropBeeper, .turnLeft]
      (atBoundary.afterActions [.dropBeeper, .moveForward, .dropBeeper, .turnLeft]) :=
    ⟨⟨by decide, by decide, by decide, by decide, trivial⟩, rfl⟩
  exact ⟨_, h, by decide, actions_reversible rfl h⟩

end World

end Karel
