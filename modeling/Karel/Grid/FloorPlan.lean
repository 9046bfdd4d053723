import Karel.Grid.Cell

/-! # Floor plans

A floor plan keeps one mask per cell, one bit per side. A wall between two neighbours is one edge of
the grid and stands in both masks, so a cell answers for its walls without looking at its
neighbours. Building and tearing down change both copies of an edge at once.
-/

namespace Karel

/-- The walls of the grid: for every cell the set of its walled sides, as a bit mask. -/
structure FloorPlan where
  masks : Vector UInt8 100
  deriving DecidableEq

namespace FloorPlan

/-- The mask of a cell when only the outer border has walls. -/
def borderMask (c : Cell) : UInt8 :=
  (if c.y = Grid.first then Direction.north.sideBit else 0)
    ||| (if c.y = Grid.last then Direction.south.sideBit else 0)
    ||| (if c.x = Grid.first then Direction.west.sideBit else 0)
    ||| (if c.x = Grid.last then Direction.east.sideBit else 0)

/-- Walls around the outer border and nowhere else. -/
def empty : FloorPlan := ⟨Vector.ofFn fun i => borderMask (Cell.ofIndex i)⟩

def wallsAt (p : FloorPlan) (c : Cell) : UInt8 := p.masks[c.index]

def hasWall (p : FloorPlan) (c : Cell) (d : Direction) : Bool := p.wallsAt c &&& d.sideBit != 0

/-- Marks one side of one cell, leaving its neighbour alone. -/
def mark (p : FloorPlan) (c : Cell) (d : Direction) : FloorPlan :=
  ⟨p.masks.set c.index (p.wallsAt c ||| d.sideBit)⟩

/-- Unmarks one side of one cell, leaving its neighbour alone. -/
def unmark (p : FloorPlan) (c : Cell) (d : Direction) : FloorPlan :=
  ⟨p.masks.set c.index (p.wallsAt c &&& ~~~ d.sideBit)⟩

/-- A wall along the north edge of `(x, y)`; row ten names the south edge of the last row. -/
def buildHorizontal (p : FloorPlan) (x y : Nat) : Except OutsideGrid FloorPlan :=
  if hx : x < 10 then
    if hy : y ≤ 10 then
      let p := if h : y < 10 then p.mark ⟨⟨x, hx⟩, ⟨y, h⟩⟩ .north else p
      .ok (if 0 < y then p.mark ⟨⟨x, hx⟩, ⟨y - 1, by omega⟩⟩ .south else p)
    else .error (.horizontalWall x y)
  else .error (.horizontalWall x y)

/-- A wall along the west edge of `(x, y)`; column ten names the east edge of the last column. -/
def buildVertical (p : FloorPlan) (x y : Nat) : Except OutsideGrid FloorPlan :=
  if hx : x ≤ 10 then
    if hy : y < 10 then
      let p := if h : x < 10 then p.mark ⟨⟨x, h⟩, ⟨y, hy⟩⟩ .west else p
      .ok (if 0 < x then p.mark ⟨⟨x - 1, by omega⟩, ⟨y, hy⟩⟩ .east else p)
    else .error (.verticalWall x y)
  else .error (.verticalWall x y)

/-- Removes the edge on one side of a cell from both cells that share it. -/
def removeWall (p : FloorPlan) (c : Cell) (d : Direction) : FloorPlan :=
  match c.neighbour? d with
  | some n => (p.unmark c d).unmark n d.opposite
  | none => p.unmark c d

def tearDown (p : FloorPlan) (x y : Nat) (d : Direction) : Except OutsideGrid FloorPlan :=
  (Cell.ofCoords x y).map fun c => p.removeWall c d

/-- One step of a construction, with its coordinates as they were given. -/
inductive Change where
  | horizontal (x y : Nat)
  | vertical (x y : Nat)
  | tearDown (x y : Nat) (d : Direction)
  deriving DecidableEq

def change (p : FloorPlan) : Change → Except OutsideGrid FloorPlan
  | .horizontal x y => p.buildHorizontal x y
  | .vertical x y => p.buildVertical x y
  | .tearDown x y d => p.tearDown x y d

/-- Carries out a whole construction; the first step outside the grid ends it. -/
def changes (p : FloorPlan) (steps : List Change) : Except OutsideGrid FloorPlan :=
  steps.foldlM change p

end FloorPlan

end Karel
