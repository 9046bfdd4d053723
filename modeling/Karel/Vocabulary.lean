import Karel.World.Basic
import Karel.Fault

/-! # The built-in vocabulary

The six actions a program can perform and the five conditions it can sense. Both are known without
being declared, and no command may take one of their names. An action has a precondition, `check`,
and an effect, `apply`; a run asks the first before it takes the second.
-/

namespace Karel

inductive Query where
  | frontIsClear
  | leftIsClear
  | rightIsClear
  | onBeeper
  | beeperAhead
  deriving DecidableEq

namespace Query

/-- All conditions, in the order in which they are listed to the user. -/
def all : List Query := [.frontIsClear, .leftIsClear, .rightIsClear, .onBeeper, .beeperAhead]

def name : Query → String
  | .frontIsClear => "frontIsClear"
  | .leftIsClear => "leftIsClear"
  | .rightIsClear => "rightIsClear"
  | .onBeeper => "onBeeper"
  | .beeperAhead => "beeperAhead"

def ofName? (text : String) : Option Query := all.find? fun q => q.name == text

def holds (q : Query) (w : World) : Bool :=
  match q with
  | .frontIsClear => w.frontIsClear
  | .leftIsClear => w.leftIsClear
  | .rightIsClear => w.rightIsClear
  | .onBeeper => w.onBeeper
  | .beeperAhead => w.beeperAhead

@[simp]
theorem ofName?_name (q : Query) : ofName? q.name = some q := by
  cases q <;> rfl

end Query

inductive Primitive where
  | moveForward
  | turnLeft
  | turnRight
  | turnAround
  | pickBeeper
  | dropBeeper
  deriving DecidableEq

namespace Primitive

def all : List Primitive :=
  [.moveForward, .turnLeft, .turnRight, .turnAround, .pickBeeper, .dropBeeper]

def name : Primitive → String
  | .moveForward => "moveForward"
  | .turnLeft => "turnLeft"
  | .turnRight => "turnRight"
  | .turnAround => "turnAround"
  | .pickBeeper => "pickBeeper"
  | .dropBeeper => "dropBeeper"

def ofName? (text : String) : Option Primitive := all.find? fun p => p.name == text

/-- The condition most likely meant by someone who wrote this action in place of a condition. -/
def hint : Primitive → Query
  | .moveForward | .turnAround => .frontIsClear
  | .turnLeft => .leftIsClear
  | .turnRight => .rightIsClear
  | .pickBeeper | .dropBeeper => .onBeeper

/-- Why the action cannot be performed in a world, if it cannot. -/
def check (p : Primitive) (w : World) : Except Fault.Cause Unit :=
  match p with
  | .moveForward => if w.frontIsClear then .ok () else .error (.blocked w.pose)
  | .pickBeeper => if w.onBeeper then .ok () else .error (.noBeeper w.cell)
  | .dropBeeper => if w.onBeeper then .error (.beeperPresent w.cell) else .ok ()
  | .turnLeft | .turnRight | .turnAround => .ok ()

/-- The world after the action, whether or not its precondition held. -/
def apply (p : Primitive) (w : World) : World :=
  match p with
  | .moveForward => w.moveForward
  | .turnLeft => w.turnLeft
  | .turnRight => w.turnRight
  | .turnAround => w.turnAround
  | .pickBeeper => w.pickBeeper
  | .dropBeeper => w.dropBeeper w.cell

@[simp]
theorem ofName?_name (p : Primitive) : ofName? p.name = some p := by
  cases p <;> rfl

end Primitive

def isVocabulary (name : String) : Bool :=
  (Primitive.ofName? name).isSome || (Query.ofName? name).isSome

end Karel
