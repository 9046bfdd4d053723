/-! # Compass directions

The four directions in counter-clockwise order, starting at east. Turning is arithmetic modulo four
on that order: a left turn adds one, turning around adds two. Rows of the grid grow southwards.
-/

namespace Karel

inductive Direction where
  | east
  | north
  | west
  | south
  deriving DecidableEq

namespace Direction

/-- All directions, counter-clockwise from east. -/
def all : List Direction := [.east, .north, .west, .south]

def index : Direction → Nat
  | .east => 0
  | .north => 1
  | .west => 2
  | .south => 3

/-- The direction at a place of `all`, read modulo four; every integer names a direction. -/
def ofIndex (n : Int) : Direction :=
  match n % 4 with
  | 0 => .east
  | 1 => .north
  | 2 => .west
  | _ => .south

/-- The direction after a number of counter-clockwise quarter turns; negative turns go clockwise. -/
def turn (d : Direction) (quarters : Int) : Direction :=
  ofIndex (d.index + quarters)

def left (d : Direction) : Direction := d.turn 1

def opposite (d : Direction) : Direction := d.turn 2

def right (d : Direction) : Direction := d.turn 3

/-- The offset of one step, columns first. -/
def offset : Direction → Int × Int
  | .east => (1, 0)
  | .north => (0, -1)
  | .west => (-1, 0)
  | .south => (0, 1)

/-- The bit of a cell's wall mask that stands for this side. -/
def sideBit (d : Direction) : UInt8 := 1 <<< d.index.toUInt8

def name : Direction → String
  | .east => "east"
  | .north => "north"
  | .west => "west"
  | .south => "south"

/-- The first letter of the name, accepted as its abbreviation. -/
def initial : Direction → String
  | .east => "e"
  | .north => "n"
  | .west => "w"
  | .south => "s"

def arrow : Direction → Char
  | .east => '>'
  | .north => '^'
  | .west => '<'
  | .south => 'v'

/-- The direction with this name or initial, up to the case of ASCII letters. -/
def ofName? (text : String) : Option Direction :=
  let lowered := String.ofList (text.toList.map Char.toLower)
  all.find? fun d => lowered == d.name || lowered == d.initial

def unknownMessage (text : String) : String :=
  s!"unknown direction `{text}`, expected east, north, west or south"

@[simp]
theorem ofIndex_index (d : Direction) : ofIndex d.index = d := by
  cases d <;> rfl

@[simp]
theorem right_left (d : Direction) : d.left.right = d := by
  cases d <;> rfl

@[simp]
theorem left_right (d : Direction) : d.right.left = d := by
  cases d <;> rfl

@[simp]
theorem opposite_opposite (d : Direction) : d.opposite.opposite = d := by
  cases d <;> rfl

end Direction

end Karel
