import Karel.World.Basic

/-! # Editing worlds

The operations by which a world is set up, with coordinates as they were given. An edit that names a
cell outside the grid is refused and changes nothing.
-/

namespace Karel.World

inductive Edit where
  | drop (x y : Nat)
  | pick
  | toggle (x y : Nat)
  | beepers (lo hi : UInt64)
  | fill
  | move
  | turn (quarters : Int)
  | place (x y : Nat) (direction : Direction)
  deriving DecidableEq

def edit (w : World) : Edit → Except OutsideGrid World
  | .drop x y => (Cell.ofCoords x y).map w.dropBeeper
  | .pick => .ok w.pickBeeper
  | .toggle x y => (Cell.ofCoords x y).map w.toggleBeeper
  | .beepers lo hi => .ok (w.withBeepers lo hi)
  | .fill => .ok w.fill
  | .move => .ok w.moveForward
  | .turn quarters => .ok (w.turn quarters)
  | .place x y d => (Cell.ofCoords x y).map fun c => w.withPose ⟨c, d⟩

/-- Carries out operations one after the other; the first refusal ends it. -/
def edits (w : World) (es : List Edit) : Except OutsideGrid World := es.foldlM edit w

/-- The world that a construction of walls and further operations give. -/
def build (changes : List FloorPlan.Change) (es : List Edit) : Except OutsideGrid World :=
  match FloorPlan.empty.changes changes with
  | .error e => .error e
  | .ok plan => (World.new plan).edits es

end Karel.World
