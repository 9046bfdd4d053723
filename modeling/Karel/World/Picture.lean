import Karel.World.Basic

/-! # Pictures of worlds

A world is drawn as twenty-one lines of forty-one characters. Lines of wall segments alternate with
lines of cells; a beeper is an `o`, the robot is an arrow, and brackets around it show a beeper
beneath it. A cell's own north and west walls are drawn with it; the east and the south border close
the picture.
-/

namespace Karel.World

/-- The columns, and likewise the rows, in order. -/
def ten : List (Fin 10) := List.finRange 10

/-- A segment of a horizontal wall line: a corner post and three characters. -/
def segment (walled : Bool) : List Char :=
  '+' :: (if walled then ['-', '-', '-'] else [' ', ' ', ' '])

def upright (walled : Bool) : Char := if walled then '|' else ' '

def interior (w : World) (c : Cell) : List Char :=
  match decide (c = w.cell), w.beeperAt c with
  | true, true => ['(', w.direction.arrow, ')']
  | true, false => [' ', w.direction.arrow, ' ']
  | false, true => [' ', 'o', ' ']
  | false, false => [' ', '.', ' ']

/-- The line above a row of cells. -/
def wallLine (w : World) (y : Fin 10) : List Char :=
  ten.flatMap (fun x => segment (w.plan.hasWall ⟨x, y⟩ .north)) ++ ['+']

/-- A row of cells with the walls to their west, closed by the east border. -/
def cellLine (w : World) (y : Fin 10) : List Char :=
  ten.flatMap (fun x => upright (w.plan.hasWall ⟨x, y⟩ .west) :: w.interior ⟨x, y⟩)
    ++ [upright (w.plan.hasWall ⟨Grid.last, y⟩ .east)]

def lastLine (w : World) : List Char :=
  ten.flatMap (fun x => segment (w.plan.hasWall ⟨x, Grid.last⟩ .south)) ++ ['+']

/-- The lines of the picture from north to south. -/
def pictureLines (w : World) : List (List Char) :=
  ten.flatMap (fun y => [w.wallLine y, w.cellLine y]) ++ [w.lastLine]

/-- The picture as text; every line ends in a newline. -/
def picture (w : World) : String := String.ofList (w.pictureLines.flatMap (· ++ ['\n']))

/-- All fields of a world on one line, walls as decimal masks. -/
def fields (w : World) : String :=
  let facing := match w.direction with
    | .east => "East"
    | .north => "North"
    | .west => "West"
    | .south => "South"
  let walls := ", ".intercalate (w.plan.masks.toList.map fun m => toString m.toNat)
  "World \x7b x: " ++ toString w.cell.x.val ++ ", y: " ++ toString w.cell.y.val
    ++ ", direction: " ++ facing ++ ", beepers_lo: " ++ toString w.beepers.lo.toNat
    ++ ", beepers_hi: " ++ toString w.beepers.hi.toNat
    ++ ", floor_plan: FloorPlan \x7b walls: [" ++ walls ++ "] \x7d \x7d"

end Karel.World
