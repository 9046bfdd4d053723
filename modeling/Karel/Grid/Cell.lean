import Karel.Grid.Direction

/-! # Cells of the grid

The grid has ten columns and ten rows. A `Cell` is inside it by its type, so reading a wall or a
beeper needs no check; the checks stand where coordinates come in from outside, in `Cell.ofCoords`.
-/

namespace Karel

def Grid.width : Nat := 10

def Grid.height : Nat := 10

/-- A place that was asked for and that the grid does not have. -/
inductive OutsideGrid where
  | cell (x y : Nat)
  | horizontalWall (x y : Nat)
  | verticalWall (x y : Nat)
  deriving DecidableEq

def OutsideGrid.message : OutsideGrid → String
  | .cell x y => s!"cell ({x}, {y}) is outside the grid"
  | .horizontalWall x y => s!"horizontal wall ({x}, {y}) is outside the grid"
  | .verticalWall x y => s!"vertical wall ({x}, {y}) is outside the grid"

/-- The first column, and likewise the first row. -/
def Grid.first : Fin 10 := ⟨0, by decide⟩

/-- The last column, and likewise the last row. -/
def Grid.last : Fin 10 := ⟨9, by decide⟩

/-- A cell of the grid, by column and row; row zero is the northernmost. -/
@[ext]
structure Cell where
  x : Fin 10
  y : Fin 10
  deriving DecidableEq

namespace Cell

/-- The cell with these coordinates, or the refusal that names them. -/
def ofCoords (x y : Nat) : Except OutsideGrid Cell :=
  if hx : x < 10 then
    if hy : y < 10 then .ok ⟨⟨x, hx⟩, ⟨y, hy⟩⟩ else .error (.cell x y)
  else .error (.cell x y)

/-- Cells are numbered row by row. -/
def index (c : Cell) : Fin 100 := ⟨c.y * 10 + c.x, by omega⟩

def ofIndex (i : Fin 100) : Cell := ⟨⟨i % 10, by omega⟩, ⟨i / 10, by omega⟩⟩

def all : List Cell := (List.finRange 100).map ofIndex

def up? (i : Fin 10) : Option (Fin 10) :=
  if h : i.val + 1 < 10 then some ⟨i.val + 1, h⟩ else none

def down? (i : Fin 10) : Option (Fin 10) :=
  if 0 < i.val then some ⟨i.val - 1, Nat.sub_lt_of_lt i.isLt⟩ else none

/-- The cell one step away, if the grid goes that far. -/
def neighbour? (c : Cell) : Direction → Option Cell
  | .east => (up? c.x).map fun x => ⟨x, c.y⟩
  | .north => (down? c.y).map fun y => ⟨c.x, y⟩
  | .west => (down? c.x).map fun x => ⟨x, c.y⟩
  | .south => (up? c.y).map fun y => ⟨c.x, y⟩

def text (c : Cell) : String := s!"({c.x.val}, {c.y.val})"

@[simp]
theorem ofIndex_index (c : Cell) : ofIndex c.index = c := by
  ext
  · simp only [ofIndex, index]
    omega
  · simp only [ofIndex, index]
    omega

@[simp]
theorem index_ofIndex (i : Fin 100) : (ofIndex i).index = i := by
  apply Fin.ext
  simp [ofIndex, index]
  omega

theorem index_injective {a b : Cell} (h : a.index = b.index) : a = b := by
  rw [← ofIndex_index a, ← ofIndex_index b, h]

/-- Coordinates are accepted exactly when both are below ten. -/
theorem ofCoords_eq_ok_iff {x y : Nat} {c : Cell} :
    ofCoords x y = .ok c ↔ c.x.val = x ∧ c.y.val = y := by
  constructor
  · intro h
    unfold ofCoords at h
    split at h
    · split at h
      · cases h
        exact ⟨rfl, rfl⟩
      · cases h
    · cases h
  · rintro ⟨rfl, rfl⟩
    simp [ofCoords]

theorem up?_eq_some_iff {i j : Fin 10} : up? i = some j ↔ j.val = i.val + 1 := by
  unfold up?
  split
  · simp only [Option.some.injEq, Fin.ext_iff]
    omega
  · simp only [reduceCtorEq, false_iff]
    omega

theorem down?_eq_some_iff {i j : Fin 10} : down? i = some j ↔ i.val = j.val + 1 := by
  unfold down?
  split
  · simp only [Option.some.injEq, Fin.ext_iff]
    omega
  · simp only [reduceCtorEq, false_iff]
    omega

theorem down?_eq_some_iff_up? {i j : Fin 10} : down? i = some j ↔ up? j = some i := by
  rw [down?_eq_some_iff, up?_eq_some_iff]

theorem neighbour?_eq_some_iff {a b : Cell} {d : Direction} :
    a.neighbour? d = some b ↔
      (b.x : Int) = a.x + d.offset.1 ∧ (b.y : Int) = a.y + d.offset.2 := by
  cases d with
  | east | west =>
    simp only [neighbour?, Option.map_eq_some_iff, up?_eq_some_iff, down?_eq_some_iff,
      Direction.offset, Cell.ext_iff, Fin.ext_iff]
    constructor
    · rintro ⟨i, hi, hx, hy⟩
      omega
    · intro h
      exact ⟨b.x, by omega, rfl, by omega⟩
  | north | south =>
    simp only [neighbour?, Option.map_eq_some_iff, up?_eq_some_iff, down?_eq_some_iff,
      Direction.offset, Cell.ext_iff, Fin.ext_iff]
    constructor
    · rintro ⟨i, hi, hx, hy⟩
      omega
    · intro h
      exact ⟨b.y, by omega, by omega, rfl⟩

/-- Stepping is symmetric: the way back leads to where one came from. -/
theorem neighbour?_opposite {a b : Cell} {d : Direction} (h : a.neighbour? d = some b) :
    b.neighbour? d.opposite = some a := by
  cases d <;> obtain ⟨i, hi, rfl⟩ := Option.map_eq_some_iff.1 h
  · change (down? i).map _ = _
    rw [down?_eq_some_iff_up?.2 hi, Option.map_some]
  · change (up? i).map _ = _
    rw [down?_eq_some_iff_up?.1 hi, Option.map_some]
  · change (up? i).map _ = _
    rw [down?_eq_some_iff_up?.1 hi, Option.map_some]
  · change (down? i).map _ = _
    rw [down?_eq_some_iff_up?.2 hi, Option.map_some]

end Cell

end Karel
