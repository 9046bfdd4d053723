import Mathlib.Data.List.Induction
import Karel.Grid.FloorPlan

/-! # Floor plans as sets of edges

Walls stand on the edges of the grid. An edge between two cells is a side of both and is stored with
both of them, an edge of the border with its only cell. A floor plan is therefore known once it is
said of every edge whether a wall stands on it, and what stands there after a construction is
decided by the last step that touched the edge. Building a horizontal wall, building a vertical one
and tearing a wall down name an edge in three different ways; `Change.edge?` is the edge they mean.
-/
namespace Karel

/-- An edge of the grid. A horizontal edge is at the north of its row and a vertical one at the west
of its column; there is one more row and one more column of them than there are of cells. -/
inductive Edge where
  | horizontal (x : Fin 10) (y : Fin 11)
  | vertical (x : Fin 11) (y : Fin 10)
  deriving DecidableEq

def Edge.isBorder : Edge → Bool
  | .horizontal _ y => y.val = 0 ∨ y.val = 10
  | .vertical x _ => x.val = 0 ∨ x.val = 10

namespace Cell

/-- The edge on one side of a cell. -/
def side (c : Cell) : Direction → Edge
  | .east => .vertical c.x.succ c.y
  | .north => .horizontal c.x c.y.castSucc
  | .west => .vertical c.x.castSucc c.y
  | .south => .horizontal c.x c.y.succ

/-- Only neighbours share an edge. -/
theorem side_eq_side_iff {a b : Cell} {d d' : Direction} :
    a.side d = b.side d' ↔ a = b ∧ d = d' ∨ a.neighbour? d = some b ∧ d' = d.opposite := by
  rw [neighbour?_eq_some_iff]
  cases d <;> cases d' <;>
    simp [side, Direction.offset, Cell.ext_iff, Fin.ext_iff, Direction.opposite, Direction.turn,
      Direction.ofIndex, Direction.index] <;> omega

theorem exists_side_eq (edge : Edge) : ∃ (c : Cell) (d : Direction), c.side d = edge := by
  cases edge with
  | horizontal x y =>
    refine Fin.lastCases ?_ (fun j => ?_) y
    · exact ⟨⟨x, Grid.last⟩, .south, rfl⟩
    · exact ⟨⟨x, j⟩, .north, rfl⟩
  | vertical x y =>
    refine Fin.lastCases ?_ (fun i => ?_) x
    · exact ⟨⟨Grid.last, y⟩, .east, rfl⟩
    · exact ⟨⟨i, y⟩, .west, rfl⟩

end Cell

/-! ## Sides of cells -/

theorem Direction.getLsbD_sideBit (d d' : Direction) :
    d.sideBit.toBitVec.getLsbD d'.index = decide (d = d') := by
  cases d <;> cases d' <;> rfl

namespace FloorPlan

/-- A mask is the set of the sides whose bits it has. -/
theorem hasWall_eq_getLsbD (p : FloorPlan) (c : Cell) (d : Direction) :
    p.hasWall c d = (p.wallsAt c).toBitVec.getLsbD d.index := by
  have hbit : d.sideBit.toBitVec = BitVec.twoPow 8 d.index := by cases d <;> rfl
  have hand : (p.wallsAt c &&& d.sideBit).toBitVec =
      if (p.wallsAt c).toBitVec.getLsbD d.index then d.sideBit.toBitVec else 0#8 := by
    rw [UInt8.toBitVec_and, hbit, BitVec.and_twoPow]
  rw [hasWall]
  cases h : (p.wallsAt c).toBitVec.getLsbD d.index with
  | false =>
    rw [h, if_neg Bool.false_ne_true] at hand
    rw [UInt8.toBitVec_inj.1 hand]
    rfl
  | true =>
    rw [h, if_pos rfl] at hand
    rw [UInt8.toBitVec_inj.1 hand]
    cases d <;> rfl

theorem wallsAt_mk_set (p : FloorPlan) (a b : Cell) (mask : UInt8) :
    wallsAt ⟨p.masks.set a.index mask a.index.isLt⟩ b = if a = b then mask else p.wallsAt b := by
  have hset : wallsAt ⟨p.masks.set a.index mask a.index.isLt⟩ b =
      if a.index.val = b.index.val then mask else p.wallsAt b :=
    Vector.getElem_set a.index.isLt b.index.isLt
  rw [hset]
  by_cases h : a = b
  · rw [if_pos h, if_pos (by rw [h])]
  · rw [if_neg h, if_neg fun hi => h (Cell.index_injective (Fin.ext hi))]

theorem hasWall_mark (p : FloorPlan) (a b : Cell) (d d' : Direction) :
    (p.mark a d).hasWall b d' = (p.hasWall b d' || decide (a = b ∧ d = d')) := by
  rw [hasWall_eq_getLsbD, hasWall_eq_getLsbD, mark, wallsAt_mk_set]
  by_cases h : a = b
  · rw [if_pos h, h, UInt8.toBitVec_or, BitVec.getLsbD_or, d.getLsbD_sideBit]
    simp
  · simp [h]

theorem hasWall_unmark (p : FloorPlan) (a b : Cell) (d d' : Direction) :
    (p.unmark a d).hasWall b d' = (p.hasWall b d' && !decide (a = b ∧ d = d')) := by
  have hlt : d'.index < 8 := by cases d' <;> decide
  rw [hasWall_eq_getLsbD, hasWall_eq_getLsbD, unmark, wallsAt_mk_set]
  by_cases h : a = b
  · rw [if_pos h, h, UInt8.toBitVec_and, UInt8.toBitVec_not, BitVec.getLsbD_and,
      BitVec.getLsbD_not, d.getLsbD_sideBit]
    simp [hlt]
  · simp [h]

theorem wallsAt_empty (c : Cell) : empty.wallsAt c = borderMask c := by
  simp [wallsAt, empty]

theorem hasWall_empty (c : Cell) (d : Direction) : empty.hasWall c d = (c.side d).isBorder := by
  have hbit (P : Prop) [Decidable P] (d' : Direction) :
      (if P then d'.sideBit else 0).toBitVec.getLsbD d.index = (decide P && decide (d' = d)) := by
    split
    · simp [d'.getLsbD_sideBit, *]
    · simp [*]
  rw [hasWall_eq_getLsbD, wallsAt_empty, borderMask]
  simp only [UInt8.toBitVec_or, BitVec.getLsbD_or, hbit, Fin.ext_iff, Grid.first, Grid.last]
  cases d with
  | east | south => simp [Cell.side, Edge.isBorder]
  | north | west =>
    simp [Cell.side, Edge.isBorder, -Fin.val_eq_zero_iff]
    omega

/-- Builds the edge on one side of a cell for both cells that share it. -/
def addWall (p : FloorPlan) (c : Cell) (d : Direction) : FloorPlan :=
  match c.neighbour? d with
  | some n => (p.mark c d).mark n d.opposite
  | none => p.mark c d

theorem hasWall_addWall (p : FloorPlan) (a b : Cell) (d d' : Direction) :
    (p.addWall a d).hasWall b d' = (p.hasWall b d' || decide (a.side d = b.side d')) := by
  simp only [addWall, Cell.side_eq_side_iff]
  -- At the border the second alternative is void, as is the second mark.
  cases a.neighbour? d with
  | none => simp [hasWall_mark]
  | some n => simp [hasWall_mark, eq_comm, Bool.or_assoc]

theorem hasWall_removeWall (p : FloorPlan) (a b : Cell) (d d' : Direction) :
    (p.removeWall a d).hasWall b d' = (p.hasWall b d' && !decide (a.side d = b.side d')) := by
  simp only [removeWall, Cell.side_eq_side_iff]
  cases a.neighbour? d with
  | none => simp [hasWall_unmark]
  | some n => simp [hasWall_unmark, eq_comm, Bool.and_assoc]

/-! ## Steps of a construction -/

/-- The coordinates that a change may have. -/
def Change.InRange : Change → Prop
  | .horizontal x y => x < 10 ∧ y ≤ 10
  | .vertical x y => x ≤ 10 ∧ y < 10
  | .tearDown x y _ => x < 10 ∧ y < 10

/-- The edge that a change is about, unless its coordinates lie outside the grid. -/
def Change.edge? : Change → Option Edge
  | .horizontal x y =>
    if h : x < 10 ∧ y < 11 then some (.horizontal ⟨x, h.1⟩ ⟨y, h.2⟩) else none
  | .vertical x y =>
    if h : x < 11 ∧ y < 10 then some (.vertical ⟨x, h.1⟩ ⟨y, h.2⟩) else none
  | .tearDown x y d =>
    if h : x < 10 ∧ y < 10 then some (Cell.side ⟨⟨x, h.1⟩, ⟨y, h.2⟩⟩ d) else none

def Change.builds : Change → Bool
  | .horizontal _ _ | .vertical _ _ => true
  | .tearDown _ _ _ => false

theorem buildHorizontal_eq_addWall (p : FloorPlan) {x y : Nat} (hx : x < 10) (hy : y < 11) :
    ∃ c d, c.side d = .horizontal ⟨x, hx⟩ ⟨y, hy⟩ ∧
      p.buildHorizontal x y = .ok (p.addWall c d) := by
  rw [buildHorizontal, dif_pos hx, dif_pos (Nat.le_of_lt_succ hy)]
  by_cases hlast : y < 10
  · refine ⟨⟨⟨x, hx⟩, ⟨y, hlast⟩⟩, .north, rfl, ?_⟩
    by_cases hpos : 0 < y
    · simp [addWall, Cell.neighbour?, Cell.down?, hlast, hpos]
      rfl
    · simp [addWall, Cell.neighbour?, Cell.down?, hlast, hpos]
  · obtain rfl : y = 10 := by omega
    exact ⟨⟨⟨x, hx⟩, Grid.last⟩, .south, rfl, rfl⟩

theorem buildVertical_eq_addWall (p : FloorPlan) {x y : Nat} (hx : x < 11) (hy : y < 10) :
    ∃ c d, c.side d = .vertical ⟨x, hx⟩ ⟨y, hy⟩ ∧ p.buildVertical x y = .ok (p.addWall c d) := by
  rw [buildVertical, dif_pos (Nat.le_of_lt_succ hx), dif_pos hy]
  by_cases hlast : x < 10
  · refine ⟨⟨⟨x, hlast⟩, ⟨y, hy⟩⟩, .west, rfl, ?_⟩
    by_cases hpos : 0 < x
    · simp [addWall, Cell.neighbour?, Cell.down?, hlast, hpos]
      rfl
    · simp [addWall, Cell.neighbour?, Cell.down?, hlast, hpos]
  · obtain rfl : x = 10 := by omega
    exact ⟨⟨Grid.last, ⟨y, hy⟩⟩, .east, rfl, rfl⟩

/-- What a change does: it sets the wall on one edge for both sides, or it is refused. -/
theorem change_cases (p : FloorPlan) (s : Change) :
    (s.InRange ∧ ∃ c d, s.edge? = some (c.side d) ∧
      p.change s = .ok (if s.builds then p.addWall c d else p.removeWall c d)) ∨
    ¬ s.InRange ∧ s.edge? = none ∧ ∃ refusal, p.change s = .error refusal := by
  cases s with
  | horizontal x y =>
    by_cases h : x < 10 ∧ y < 11
    · obtain ⟨c, d, hside, hq⟩ := p.buildHorizontal_eq_addWall h.1 h.2
      refine .inl ⟨⟨h.1, Nat.le_of_lt_succ h.2⟩, c, d, ?_, hq⟩
      rw [Change.edge?, dif_pos h, hside]
    · refine .inr ⟨fun hr => h ⟨hr.1, Nat.lt_succ_of_le hr.2⟩, dif_neg h, .horizontalWall x y, ?_⟩
      simp only [change, buildHorizontal]
      grind
  | vertical x y =>
    by_cases h : x < 11 ∧ y < 10
    · obtain ⟨c, d, hside, hq⟩ := p.buildVertical_eq_addWall h.1 h.2
      refine .inl ⟨⟨Nat.le_of_lt_succ h.1, h.2⟩, c, d, ?_, hq⟩
      rw [Change.edge?, dif_pos h, hside]
    · refine .inr ⟨fun hr => h ⟨Nat.lt_succ_of_le hr.1, hr.2⟩, dif_neg h, .verticalWall x y, ?_⟩
      simp only [change, buildVertical]
      grind
  | tearDown x y d =>
    by_cases h : x < 10 ∧ y < 10
    · refine .inl ⟨h, ⟨⟨x, h.1⟩, ⟨y, h.2⟩⟩, d, dif_pos h, ?_⟩
      simp only [change, tearDown, Cell.ofCoords, dif_pos h.1, dif_pos h.2]
      rfl
    · refine .inr ⟨h, dif_neg h, .cell x y, ?_⟩
      simp only [change, tearDown, Cell.ofCoords]
      grind [Except.map]

/-- A step of a construction: a change, or finishing the plan and going on from it. -/
inductive Step where
  | change (change : Change)
  | reopen
  deriving DecidableEq

namespace Step

def InRange : Step → Prop
  | .change s => s.InRange
  | .reopen => True

def edge? : Step → Option Edge
  | .change s => s.edge?
  | .reopen => none

def builds : Step → Bool
  | .change s => s.builds
  | .reopen => false

end Step

/-- Takes a step; finishing a plan leaves all walls as they are. -/
def take (p : FloorPlan) : Step → Except OutsideGrid FloorPlan
  | .change s => p.change s
  | .reopen => .ok p

/-- The plan after a step, which is the one before it if the step is refused. -/
def attempt (p : FloorPlan) (s : Step) : FloorPlan :=
  match p.take s with
  | .ok q => q
  | .error _ => p

def built (steps : List Step) : FloorPlan := steps.foldl attempt empty

end FloorPlan

/-- Whether a wall stands on an edge after some steps: the last step that touched the edge says so,
and if none did, the border does. -/
def Edge.stands (edge : Edge) (steps : List FloorPlan.Step) : Bool :=
  match (steps.filter fun s => s.edge? = some edge).getLast? with
  | some s => s.builds
  | none => edge.isBorder

theorem Edge.stands_concat (edge : Edge) (steps : List FloorPlan.Step) (s : FloorPlan.Step) :
    edge.stands (steps ++ [s]) = if s.edge? = some edge then s.builds else edge.stands steps := by
  unfold stands
  by_cases h : s.edge? = some edge
  · simp [List.filter_append, h]
  · simp [List.filter_append, h]

namespace FloorPlan

theorem take_refused_iff (p : FloorPlan) (s : Step) :
    (∃ refusal, p.take s = .error refusal) ↔ ¬ s.InRange := by
  cases s with
  | reopen => simp [take, Step.InRange]
  | change s =>
    rcases p.change_cases s with ⟨hr, c, d, -, hok⟩ | ⟨hr, -, herror⟩
    · simp [take, Step.InRange, hr, hok]
    · simp [take, Step.InRange, hr, herror]

theorem attempt_of_not_inRange (p : FloorPlan) {s : Step} (h : ¬ s.InRange) : p.attempt s = p := by
  obtain ⟨refusal, hs⟩ := (p.take_refused_iff s).2 h
  rw [attempt, hs]

/-- A step decides about its edge and leaves all others. -/
theorem hasWall_attempt (p : FloorPlan) (s : Step) (c : Cell) (d : Direction) :
    (p.attempt s).hasWall c d =
      if s.edge? = some (c.side d) then s.builds else p.hasWall c d := by
  cases s with
  | reopen => rfl
  | change s =>
    rcases p.change_cases s with ⟨-, a, d', hedge, hok⟩ | ⟨-, hedge, refusal, herror⟩
    · simp only [attempt, take, hok, Step.edge?, Step.builds, hedge, Option.some.injEq]
      cases s.builds with
      | true =>
        rw [if_pos rfl, hasWall_addWall]
        by_cases hside : a.side d' = c.side d <;> simp [hside]
      | false =>
        rw [if_neg Bool.false_ne_true, hasWall_removeWall]
        by_cases hside : a.side d' = c.side d <;> simp [hside]
    · simp [attempt, take, herror, Step.edge?, hedge]

theorem built_concat (steps : List Step) (s : Step) :
    built (steps ++ [s]) = (built steps).attempt s := by
  rw [built, List.foldl_append]
  rfl

theorem hasWall_built (steps : List Step) (c : Cell) (d : Direction) :
    (built steps).hasWall c d = (c.side d).stands steps := by
  -- From the end: the last step decides about its edge and leaves the others to those before it.
  induction steps using List.reverseRecOn with
  | nil => exact hasWall_empty c d
  | append_singleton steps s ih => rw [built_concat, hasWall_attempt, Edge.stands_concat, ih]

/-- Neighbours agree about the wall between them. -/
theorem hasWall_built_opposite (steps : List Step) {a b : Cell} {d : Direction}
    (h : a.neighbour? d = some b) :
    (built steps).hasWall b d.opposite = (built steps).hasWall a d := by
  have hside : a.side d = b.side d.opposite := Cell.side_eq_side_iff.2 (.inr ⟨h, rfl⟩)
  rw [hasWall_built, hasWall_built, hside]

/-- No mask has a bit that stands for no side. -/
def Narrow (p : FloorPlan) : Prop := ∀ c, (p.wallsAt c).toNat < 16

section Narrow
variable {p : FloorPlan}

theorem narrow_empty : empty.Narrow := by
  intro c
  have hbit (P : Prop) [Decidable P] (d : Direction) :
      (if P then d.sideBit else 0).toNat < 2 ^ 4 := by
    split
    · cases d <;> decide
    · decide
  rw [wallsAt_empty, borderMask]
  simp only [UInt8.toNat_or]
  exact Nat.or_lt_two_pow (Nat.or_lt_two_pow (Nat.or_lt_two_pow (hbit _ _) (hbit _ _)) (hbit _ _))
    (hbit _ _)

theorem Narrow.mark (h : p.Narrow) (c : Cell) (d : Direction) : (p.mark c d).Narrow := by
  intro b
  rw [FloorPlan.mark, wallsAt_mk_set]
  split
  · have hbit : d.sideBit.toNat < 2 ^ 4 := by cases d <;> decide
    rw [UInt8.toNat_or]
    exact Nat.or_lt_two_pow (h c) hbit
  · exact h b

theorem Narrow.unmark (h : p.Narrow) (c : Cell) (d : Direction) : (p.unmark c d).Narrow := by
  intro b
  rw [FloorPlan.unmark, wallsAt_mk_set]
  split
  · rw [UInt8.toNat_and]
    exact Nat.lt_of_le_of_lt Nat.and_le_left (h c)
  · exact h b

theorem Narrow.addWall (h : p.Narrow) (c : Cell) (d : Direction) : (p.addWall c d).Narrow := by
  unfold FloorPlan.addWall
  split
  · exact (h.mark _ _).mark _ _
  · exact h.mark _ _

theorem Narrow.removeWall (h : p.Narrow) (c : Cell) (d : Direction) :
    (p.removeWall c d).Narrow := by
  unfold FloorPlan.removeWall
  split
  · exact (h.unmark _ _).unmark _ _
  · exact h.unmark _ _

theorem Narrow.attempt (h : p.Narrow) (s : Step) : (p.attempt s).Narrow := by
  cases s with
  | reopen => exact h
  | change s =>
    rcases p.change_cases s with ⟨-, a, d, -, hok⟩ | ⟨-, -, refusal, herror⟩
    · simp only [FloorPlan.attempt, take, hok]
      split
      · exact h.addWall a d
      · exact h.removeWall a d
    · simp only [FloorPlan.attempt, take, herror]
      exact h

end Narrow

theorem narrow_built (steps : List Step) : (built steps).Narrow := by
  induction steps using List.reverseRecOn with
  | nil => exact narrow_empty
  | append_singleton steps s ih =>
    rw [built_concat]
    exact ih.attempt s

/-- Without further bits a floor plan is known by the walls that cells have on their sides. -/
theorem Narrow.eq_of_hasWall_eq {p q : FloorPlan} (hp : p.Narrow) (hq : q.Narrow)
    (h : ∀ c d, p.hasWall c d = q.hasWall c d) : p = q := by
  have hmask (c : Cell) : p.wallsAt c = q.wallsAt c := by
    apply UInt8.toBitVec_inj.1
    apply BitVec.eq_of_getLsbD_eq
    intro i hi
    by_cases hside : i < 4
    · obtain ⟨d, rfl⟩ : ∃ d : Direction, d.index = i := by
        match i, hside with
        | 0, _ => exact ⟨.east, rfl⟩
        | 1, _ => exact ⟨.north, rfl⟩
        | 2, _ => exact ⟨.west, rfl⟩
        | 3, _ => exact ⟨.south, rfl⟩
      rw [← hasWall_eq_getLsbD, ← hasWall_eq_getLsbD, h]
    · have hclear {mask : UInt8} (hmask : mask.toNat < 2 ^ 4) : mask.toBitVec.getLsbD i = false :=
        Nat.testBit_lt_two_pow
          (Nat.lt_of_lt_of_le hmask (Nat.pow_le_pow_right (by decide) (by omega)))
      rw [hclear (hp c), hclear (hq c)]
  obtain ⟨masks⟩ := p
  obtain ⟨masks'⟩ := q
  congr 1
  apply Vector.ext
  intro i hi
  have hc := hmask (Cell.ofIndex ⟨i, hi⟩)
  simpa [wallsAt] using hc

/-- A floor plan is a set of edges. After any steps, a further one is refused just when its
coordinates are out of their range, and then it changes nothing. A side of a cell is walled just
when a wall stands on its edge. Every edge is a side of a cell, and two sides are the same edge only
if the cells are neighbours that face each other there, so neighbours agree about the wall between
them. And no mask has other bits than those of the four sides. -/
theorem built_is_edge_set (steps : List Step) :
    (∀ s : Step, ((∃ refusal, (built steps).take s = .error refusal) ↔ ¬ s.InRange) ∧
      (¬ s.InRange → built (steps ++ [s]) = built steps)) ∧
    (∀ c d, (built steps).hasWall c d = (c.side d).stands steps) ∧
    (∀ edge : Edge, ∃ (c : Cell) (d : Direction), c.side d = edge) ∧
    (∀ (a b : Cell) (d d' : Direction), a.side d = b.side d' ↔
      a = b ∧ d = d' ∨ a.neighbour? d = some b ∧ d' = d.opposite) ∧
    (∀ (a b : Cell) (d : Direction), a.neighbour? d = some b →
      (built steps).hasWall b d.opposite = (built steps).hasWall a d) ∧
    ∀ c, ((built steps).wallsAt c).toNat < 16 := by
  refine ⟨fun s => ⟨take_refused_iff _ s, fun hs => ?_⟩, hasWall_built steps, Cell.exists_side_eq,
    fun _ _ _ _ => Cell.side_eq_side_iff, fun _ _ _ => hasWall_built_opposite steps,
    narrow_built steps⟩
  rw [built_concat, attempt_of_not_inRange _ hs]

/-- A wall that is built from the one side can be torn down from the other. -/
example : Edge.stands (.vertical 5 5)
    [.change (.vertical 5 5), .reopen, .change (.horizontal 5 5), .change (.tearDown 4 5 .east)] =
      false := by
  decide

end FloorPlan

end Karel
