import Karel.Grid.FloorPlan
import Karel.Grid.Beepers

/-! # Worlds

A world is a robot with its pose, a set of beepers and a floor plan. Every operation gives a new
world. The operations here carry out what they are told without asking whether a program may do it;
the preconditions of a program's actions are in `Karel.Vocabulary`.
-/

namespace Karel

/-- Where the robot stands and which way it faces. -/
@[ext]
structure Pose where
  cell : Cell
  direction : Direction
  deriving DecidableEq

@[ext]
structure World where
  pose : Pose
  beepers : Beepers
  plan : FloorPlan
  deriving DecidableEq

namespace World

/-- The robot starts in the south-west corner and faces east. -/
def startPose : Pose := ⟨⟨Grid.first, Grid.last⟩, .east⟩

def new (plan : FloorPlan) : World := ⟨startPose, .empty, plan⟩

/-- The world without inner walls and without beepers. -/
def empty : World := new .empty

def cell (w : World) : Cell := w.pose.cell

def direction (w : World) : Direction := w.pose.direction

/-! ## Beepers -/

def beeperAt (w : World) (c : Cell) : Bool := w.beepers.contains c

def dropBeeper (w : World) (c : Cell) : World := { w with beepers := w.beepers.insert c }

/-- Takes away the beeper under the robot, if there is one. -/
def pickBeeper (w : World) : World := { w with beepers := w.beepers.erase w.cell }

def toggleBeeper (w : World) (c : Cell) : World := { w with beepers := w.beepers.toggle c }

def withBeepers (w : World) (lo hi : UInt64) : World := { w with beepers := .ofWords lo hi }

def fill (w : World) : World := { w with beepers := .full }

def beeperCount (w : World) : Nat := w.beepers.count

/-! ## Pose -/

def withPose (w : World) (pose : Pose) : World := { w with pose }

/-- Turns the robot by a number of counter-clockwise quarter turns. -/
def turn (w : World) (quarters : Int) : World :=
  { w with pose := { w.pose with direction := w.direction.turn quarters } }

def turnLeft (w : World) : World := w.turn 1

def turnAround (w : World) : World := w.turn 2

def turnRight (w : World) : World := w.turn 3

/-- One step ahead, walls or not; at the edge of the grid the robot stays. -/
def moveForward (w : World) : World :=
  match w.cell.neighbour? w.direction with
  | some c => { w with pose := { w.pose with cell := c } }
  | none => w

/-! ## Sensors -/

/-- Whether the robot could walk off in a direction: no wall, and a cell to go to. -/
def isClear (w : World) (d : Direction) : Bool :=
  !w.plan.hasWall w.cell d && (w.cell.neighbour? d).isSome

def frontIsClear (w : World) : Bool := w.isClear w.direction

def leftIsClear (w : World) : Bool := w.isClear w.direction.left

def rightIsClear (w : World) : Bool := w.isClear w.direction.right

def onBeeper (w : World) : Bool := w.beeperAt w.cell

/-- Whether there is a beeper on the cell ahead, walls or not; never at the edge of the grid. -/
def beeperAhead (w : World) : Bool := (w.cell.neighbour? w.direction).any w.beeperAt

end World

end Karel
