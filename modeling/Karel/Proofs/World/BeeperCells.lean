import Karel.Proofs.Grid.CellSet
import Karel.World.Edit

/-! # Worlds and their sets of beepers

The operations on worlds, as operations on the set of the cells with a beeper. In a world that
operations have made out of one without beepers the set is all that there is to the two words: their
bits are as many as its cells, and worlds with the same pose, floor plan and set are equal.
-/
namespace Karel.World

/-- The cells with a beeper. -/
def beeperCells (w : World) : Finset Cell := {c | w.beeperAt c = true}

namespace Edit

/-- The coordinates of an operation, if it has any, are those of a cell. -/
def InGrid : Edit → Prop
  | .drop x y | .toggle x y | .place x y _ => x < Grid.width ∧ y < Grid.height
  | .pick | .beepers _ _ | .fill | .move | .turn _ => True

/-- The cell with these coordinates, as a set; there is none outside the grid. -/
def cellAt (x y : Nat) : Finset Cell := {c | c.x.val = x ∧ c.y.val = y}

/-- What an operation makes of a set of cells while the robot stands on a given one. -/
def onCells (robot : Cell) (s : Finset Cell) : Edit → Finset Cell
  | .drop x y => s ∪ cellAt x y
  | .pick => s.erase robot
  | .toggle x y => symmDiff s (cellAt x y)
  | .beepers lo hi => {c | (2 ^ 64 * hi.toNat + lo.toNat).testBit c.index.val = true}
  | .fill => Finset.univ
  | .move | .turn _ | .place _ _ _ => s

theorem cellAt_eq (c : Cell) : cellAt c.x.val c.y.val = {c} := by
  ext d
  simp [cellAt, Cell.ext_iff, Fin.ext_iff]

end Edit

variable {w v : World} {e : Edit} {es : List Edit}

theorem beeperCells_eq (w : World) : w.beeperCells = w.beepers.cells := rfl

theorem beepers_moveForward (w : World) : w.moveForward.beepers = w.beepers := by
  unfold moveForward
  split <;> rfl

/-- An operation with the coordinates of a cell is carried out on that cell. -/
theorem map_ofCoords (f : Cell → World) (c : Cell) :
    (Cell.ofCoords c.x.val c.y.val).map f = .ok (f c) := by
  have h : Cell.ofCoords c.x.val c.y.val = .ok c := Cell.ofCoords_eq_ok_iff.2 ⟨rfl, rfl⟩
  rw [h]
  rfl

theorem exists_cell {x y : Nat} (h : x < Grid.width ∧ y < Grid.height) :
    ∃ c : Cell, c.x.val = x ∧ c.y.val = y :=
  ⟨⟨⟨x, h.1⟩, ⟨y, h.2⟩⟩, rfl, rfl⟩

theorem edit_onCells (w : World) (h : e.InGrid) :
    ∃ v, w.edit e = .ok v ∧ v.beeperCells = e.onCells w.cell w.beeperCells := by
  cases e with
  | drop x y =>
    obtain ⟨c, rfl, rfl⟩ := exists_cell h
    refine ⟨w.dropBeeper c, map_ofCoords _ c, ?_⟩
    rw [Edit.onCells, Edit.cellAt_eq, Finset.union_comm, ← Finset.insert_eq]
    exact w.beepers.cells_insert c
  | pick => exact ⟨w.pickBeeper, rfl, w.beepers.cells_erase w.cell⟩
  | toggle x y =>
    obtain ⟨c, rfl, rfl⟩ := exists_cell h
    refine ⟨w.toggleBeeper c, map_ofCoords _ c, ?_⟩
    rw [Edit.onCells, Edit.cellAt_eq]
    exact w.beepers.cells_toggle c
  | beepers lo hi =>
    refine ⟨w.withBeepers lo hi, rfl, ?_⟩
    ext c
    rw [beeperCells_eq, withBeepers, Beepers.mem_cells_ofWords]
    simp [Edit.onCells]
  | fill => exact ⟨w.fill, rfl, Beepers.cells_full⟩
  | move =>
    refine ⟨w.moveForward, rfl, ?_⟩
    rw [beeperCells_eq, beepers_moveForward]
    rfl
  | turn quarters => exact ⟨w.turn quarters, rfl, rfl⟩
  | place x y d =>
    obtain ⟨c, rfl, rfl⟩ := exists_cell h
    exact ⟨w.withPose ⟨c, d⟩, map_ofCoords _ c, rfl⟩

theorem exists_of_map_ofCoords {x y : Nat} {f : Cell → World}
    (h : (Cell.ofCoords x y).map f = .ok v) : ∃ c, v = f c := by
  cases hc : Cell.ofCoords x y with
  | error e =>
    rw [hc] at h
    cases h
  | ok c =>
    rw [hc] at h
    cases h
    exact ⟨c, rfl⟩

/-- No operation sets a spare bit. -/
theorem trim_edit (hw : w.beepers.Trim) (h : w.edit e = .ok v) : v.beepers.Trim := by
  cases e with
  | drop x y =>
    obtain ⟨c, rfl⟩ := exists_of_map_ofCoords h
    exact hw.insert c
  | pick =>
    cases h
    exact hw.erase w.cell
  | toggle x y =>
    obtain ⟨c, rfl⟩ := exists_of_map_ofCoords h
    exact hw.toggle c
  | beepers lo hi =>
    cases h
    exact Beepers.trim_ofWords lo hi
  | fill =>
    cases h
    exact Beepers.trim_ofWords _ _
  | move =>
    cases h
    rwa [beepers_moveForward]
  | turn quarters =>
    cases h
    exact hw
  | place x y d =>
    obtain ⟨c, rfl⟩ := exists_of_map_ofCoords h
    exact hw

theorem trim_edits (hw : w.beepers.Trim) (h : w.edits es = .ok v) : v.beepers.Trim := by
  induction es generalizing w with
  | nil =>
    cases h
    exact hw
  | cons e es ih =>
    cases he : w.edit e with
    | error refusal =>
      simp only [edits, List.foldlM_cons, he] at h
      cases h
    | ok u =>
      simp only [edits, List.foldlM_cons, he] at h
      exact ih (trim_edit hw he) h

theorem trim_of_edits_new {plan : FloorPlan} (h : (new plan).edits es = .ok w) : w.beepers.Trim :=
  trim_edits (w := new plan) Beepers.trim_empty h

theorem plan_edit (h : w.edit e = .ok v) : v.plan = w.plan := by
  cases e with
  | drop x y | toggle x y | place x y d =>
    obtain ⟨c, rfl⟩ := exists_of_map_ofCoords h
    rfl
  | pick | beepers lo hi | fill | turn quarters =>
    cases h
    rfl
  | move =>
    cases h
    unfold moveForward
    split <;> rfl

/-- No operation builds or tears down a wall. -/
theorem plan_edits (h : w.edits es = .ok v) : v.plan = w.plan := by
  induction es generalizing w with
  | nil =>
    cases h
    rfl
  | cons e es ih =>
    cases he : w.edit e with
    | error refusal =>
      simp only [edits, List.foldlM_cons, he] at h
      cases h
    | ok u =>
      simp only [edits, List.foldlM_cons, he] at h
      exact (ih h).trans (plan_edit he)

/-- Worlds that operations have made are known by what can be asked of them. -/
theorem eq_of_beeperCells_eq {plan plan' : FloorPlan} {es' : List Edit}
    (hw : (new plan).edits es = .ok w) (hv : (new plan').edits es' = .ok v)
    (hpose : w.pose = v.pose) (hplan : w.plan = v.plan) (hcells : w.beeperCells = v.beeperCells) :
    w = v :=
  World.ext hpose (Beepers.eq_of_cells_eq (trim_of_edits_new hw) (trim_of_edits_new hv) hcells)
    hplan

/-- The two words of beepers are a set of cells. In a world that any operations have made out of one
without beepers, every operation with coordinates in the grid is carried out and does to the set of
the cells with a beeper what it says; the number of beepers is the number of cells in the set, no
spare bit is set, and the world is known by its pose, its floor plan and the set. -/
theorem beepers_are_cell_set {plan : FloorPlan} (hw : (new plan).edits es = .ok w) :
    (∀ e : Edit, e.InGrid →
      ∃ v, w.edit e = .ok v ∧ v.beeperCells = e.onCells w.cell w.beeperCells) ∧
    w.beeperCount = w.beeperCells.card ∧
    w.beepers.hi.toNat < 2 ^ 36 ∧
    ∀ (plan' : FloorPlan) (es' : List Edit) (v : World), (new plan').edits es' = .ok v →
      w.pose = v.pose → w.plan = v.plan → w.beeperCells = v.beeperCells → w = v := by
  have htrim := trim_of_edits_new hw
  refine ⟨fun e he => w.edit_onCells he, htrim.count_eq_card, htrim, ?_⟩
  intro plan' es' v hv hpose hplan hcells
  exact eq_of_beeperCells_eq hw hv hpose hplan hcells

/-- A world after operations on the last cell of the low word, the first and the last one of the
high word and four spare bits. -/
def atCorner : World where
  pose := startPose
  beepers := ⟨0, 0x800000000⟩
  plan := .empty

theorem atCorner_beepers_are_cell_set :
    (new .empty).edits [.beepers 0x8000000000000000 0xf000000001, .toggle 3 6, .drop 9 9,
      .place 4 6 .north, .turn (-7), .pick, .move, .place 0 9 .east] = .ok atCorner ∧
    atCorner.beeperCells.card = 1 ∧
    (∃ v, atCorner.edit (.toggle 3 6) = .ok v ∧
      v.beeperCells = symmDiff atCorner.beeperCells (Edit.cellAt 3 6)) ∧
    ∀ v, (new .empty).edits [.drop 9 9] = .ok v →
      atCorner.pose = v.pose → atCorner.plan = v.plan → atCorner.beeperCells = v.beeperCells →
      atCorner = v := by
  have hw : (new .empty).edits [.beepers 0x8000000000000000 0xf000000001, .toggle 3 6, .drop 9 9,
      .place 4 6 .north, .turn (-7), .pick, .move, .place 0 9 .east] = .ok atCorner := by rfl
  obtain ⟨hedit, hcount, -, hext⟩ := beepers_are_cell_set hw
  refine ⟨hw, ?_, hedit (.toggle 3 6) ⟨by decide, by decide⟩, hext _ _⟩
  rw [← hcount]
  decide

end Karel.World
