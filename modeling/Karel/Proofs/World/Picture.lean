import Mathlib.Data.List.Flatten
import Karel.Proofs.Grid.Edges
import Karel.Proofs.World.BeeperCells
import Karel.World.Picture

/-! # Pictures can be read back

Every line of a picture has the same length, and so has everything in it, so whatever is drawn
stands at a place of its own and can be told from the text. Not every wall is drawn: of the sides of
a cell it is the north and the west one, and the east and the south one only at the border. The
other sides are those of neighbours, who agree about the wall between them if the plan was
constructed from the empty one.
-/
namespace Karel

/-! ## Texts made of parts -/

section Parts

variable {α β : Type}

/-- Parts of equal lengths are the same if they make up the same text. -/
theorem eq_of_flatMap_eq {f g : α → List β} {as : List α}
    (hlength : ∀ a ∈ as, (f a).length = (g a).length) (h : as.flatMap f = as.flatMap g) :
    ∀ a ∈ as, f a = g a := by
  have hlengths : (as.map f).map List.length = (as.map g).map List.length := by
    rw [List.map_map, List.map_map]
    exact List.map_congr_left hlength
  have hparts : as.map f = as.map g := List.eq_iff_flatten_eq.2 ⟨h, hlengths⟩
  exact List.map_inj_left.1 hparts

/-- So are lines, each of them with a mark at its end. -/
theorem eq_of_flatMap_concat_eq {mark : β} {ls ms : List (List β)}
    (hlength : ls.map List.length = ms.map List.length)
    (h : ls.flatMap (· ++ [mark]) = ms.flatMap (· ++ [mark])) : ls = ms := by
  have hmarked (ns : List (List β)) :
      (ns.map (· ++ [mark])).map List.length = (ns.map List.length).map (· + 1) := by
    simp
  have hmarks : ls.map (· ++ [mark]) = ms.map (· ++ [mark]) := by
    refine List.eq_iff_flatten_eq.2 ⟨h, ?_⟩
    rw [hmarked, hmarked, hlength]
  exact List.map_injective_iff.2 (List.append_left_injective [mark]) hmarks

end Parts

namespace World

theorem mem_ten (i : Fin 10) : i ∈ ten := List.mem_finRange i

/-! ## The shape of a picture -/

@[simp]
theorem length_segment (walled : Bool) : (segment walled).length = 4 := by
  cases walled <;> rfl

@[simp]
theorem length_interior (w : World) (c : Cell) : (w.interior c).length = 3 := by
  unfold interior
  split <;> rfl

theorem length_wallLine (w : World) (y : Fin 10) : (w.wallLine y).length = 41 := by
  simp [wallLine, ten]

theorem length_cellLine (w : World) (y : Fin 10) : (w.cellLine y).length = 41 := by
  simp [cellLine, ten]

theorem length_lastLine (w : World) : w.lastLine.length = 41 := by
  simp [lastLine, ten]

theorem map_length_pictureLines (w : World) :
    w.pictureLines.map List.length = List.replicate 21 41 := by
  simp only [pictureLines, List.map_append, List.map_flatMap, List.map_cons, List.map_nil,
    length_wallLine, length_cellLine, length_lastLine]
  rfl

theorem newline_notMem_segment (walled : Bool) : '\n' ∉ segment walled := by
  cases walled <;> decide

theorem newline_ne_upright (walled : Bool) : '\n' ≠ upright walled := by
  cases walled <;> decide

theorem newline_notMem_interior (w : World) (c : Cell) : '\n' ∉ w.interior c := by
  have harrow : '\n' ≠ w.direction.arrow := by
    cases w.direction <;> decide
  unfold interior
  split <;> simp [harrow]

theorem newline_notMem_pictureLines (w : World) : ∀ line ∈ w.pictureLines, '\n' ∉ line := by
  intro line hline
  simp only [pictureLines, List.mem_append, List.mem_flatMap, List.mem_cons, List.not_mem_nil,
    or_false] at hline
  rcases hline with ⟨y, -, rfl | rfl⟩ | rfl
  · simp [wallLine, newline_notMem_segment]
  · simp [cellLine, newline_notMem_interior, newline_ne_upright]
  · simp [lastLine, newline_notMem_segment]

/-! ## What a picture tells -/

theorem segment_injective : Function.Injective segment := by
  intro a b h
  cases a <;> cases b <;> first | rfl | cases h

theorem upright_injective : Function.Injective upright := by
  intro a b h
  cases a <;> cases b <;> first | rfl | cases h

theorem arrow_injective : Function.Injective Direction.arrow := by
  intro a b h
  cases a <;> cases b <;> first | rfl | cases h

variable {w v : World}

/-- The character in the middle of a cell. -/
def mark (w : World) (c : Cell) : Char :=
  if c = w.cell then w.direction.arrow else if w.beeperAt c then 'o' else '.'

theorem interior_eq (w : World) (c : Cell) :
    w.interior c = if c = w.cell ∧ w.beeperAt c = true then ['(', w.mark c, ')']
      else [' ', w.mark c, ' '] := by
  unfold interior mark
  by_cases hc : c = w.cell <;> cases w.beeperAt c <;> simp [hc]

theorem mark_eq_of_interior_eq {c : Cell} (h : w.interior c = v.interior c) :
    w.mark c = v.mark c := by
  have hmiddle (u : World) : (u.interior c)[1]? = some (u.mark c) := by
    rw [interior_eq]
    split <;> rfl
  have hmarks := hmiddle v
  rw [← h, hmiddle w] at hmarks
  exact Option.some.inj hmarks

theorem brackets_of_interior_eq {c : Cell} (h : w.interior c = v.interior c) :
    c = w.cell ∧ w.beeperAt c = true ↔ c = v.cell ∧ v.beeperAt c = true := by
  have hbracket (u : World) :
      (u.interior c).head? = some '(' ↔ c = u.cell ∧ u.beeperAt c = true := by
    rw [interior_eq]
    by_cases hu : c = u.cell ∧ u.beeperAt c = true
    · rw [if_pos hu]
      exact iff_of_true rfl hu
    · rw [if_neg hu]
      exact iff_of_false (by simp) hu
  rw [← hbracket w, ← hbracket v, h]

theorem arrow_ne (d : Direction) : d.arrow ≠ '.' ∧ d.arrow ≠ 'o' := by
  cases d <;> decide

/-- No arrow is drawn where the robot is not. -/
theorem eq_cell_of_mark_eq {c : Cell} {d : Direction} (h : w.mark c = d.arrow) : c = w.cell := by
  obtain ⟨hdot, hbeeper⟩ := arrow_ne d
  unfold mark at h
  split at h
  · assumption
  · split at h
    · exact absurd h.symm hbeeper
    · exact absurd h.symm hdot

/-- The inside of a cell tells whether there is a beeper on it, and the robot and where it faces. -/
theorem eq_of_interior_eq {c : Cell} (h : w.interior c = v.interior c) :
    (c = w.cell → c = v.cell ∧ w.direction = v.direction) ∧ w.beeperAt c = v.beeperAt c := by
  have hmark := mark_eq_of_interior_eq h
  have hbrackets := brackets_of_interior_eq h
  by_cases hw : c = w.cell
  · have hv : c = v.cell := by
      rw [mark, if_pos hw] at hmark
      exact eq_cell_of_mark_eq hmark.symm
    refine ⟨fun _ => ⟨hv, ?_⟩, ?_⟩
    · rw [mark, mark, if_pos hw, if_pos hv] at hmark
      exact arrow_injective hmark
    · rw [and_iff_right hw, and_iff_right hv] at hbrackets
      exact Bool.eq_iff_iff.2 hbrackets
  · have hv : c ≠ v.cell := by
      intro hv
      rw [mark.eq_def v, if_pos hv] at hmark
      exact hw (eq_cell_of_mark_eq hmark)
    refine ⟨fun hc => absurd hc hw, ?_⟩
    rw [mark, mark, if_neg hw, if_neg hv] at hmark
    cases hb : w.beeperAt c <;> cases hb' : v.beeperAt c <;> simp_all

/-- All that a picture tells. -/
structure LooksLike (w v : World) : Prop where
  interior : ∀ c, w.interior c = v.interior c
  north : ∀ c, w.plan.hasWall c .north = v.plan.hasWall c .north
  west : ∀ c, w.plan.hasWall c .west = v.plan.hasWall c .west
  east : ∀ y, w.plan.hasWall ⟨Grid.last, y⟩ .east = v.plan.hasWall ⟨Grid.last, y⟩ .east
  south : ∀ x, w.plan.hasWall ⟨x, Grid.last⟩ .south = v.plan.hasWall ⟨x, Grid.last⟩ .south

theorem pictureLines_eq_of_picture_eq (h : w.picture = v.picture) :
    w.pictureLines = v.pictureLines := by
  refine eq_of_flatMap_concat_eq ?_ (String.ofList_injective h)
  rw [map_length_pictureLines, map_length_pictureLines]

theorem looksLike_of_picture_eq (h : w.picture = v.picture) : w.LooksLike v := by
  obtain ⟨hrows, hlast⟩ := List.append_inj' (pictureLines_eq_of_picture_eq h) rfl
  have hrow (y : Fin 10) : [w.wallLine y, w.cellLine y] = [v.wallLine y, v.cellLine y] :=
    eq_of_flatMap_eq (by simp) hrows y (mem_ten y)
  have hwalls (y : Fin 10) : w.wallLine y = v.wallLine y := (List.cons.inj (hrow y)).1
  have hcells (y : Fin 10) : w.cellLine y = v.cellLine y :=
    (List.cons.inj (List.cons.inj (hrow y)).2).1
  have hcell (y : Fin 10) := List.append_inj' (hcells y) rfl
  have hinside (c : Cell) : upright (w.plan.hasWall c .west) :: w.interior c =
      upright (v.plan.hasWall c .west) :: v.interior c :=
    eq_of_flatMap_eq (by simp) (hcell c.y).1 c.x (mem_ten c.x)
  have hinterior (c : Cell) : w.interior c = v.interior c := (List.cons.inj (hinside c)).2
  refine ⟨hinterior, fun c => ?_, fun c => ?_, fun y => ?_, fun x => ?_⟩
  · have hsegments := (List.append_inj' (hwalls c.y) rfl).1
    exact segment_injective (eq_of_flatMap_eq (by simp) hsegments c.x (mem_ten c.x))
  · exact upright_injective (List.cons.inj (hinside c)).1
  · exact upright_injective (List.cons.inj (hcell y).2).1
  · have hsegments := (List.append_inj' (List.cons.inj hlast).1 rfl).1
    exact segment_injective (eq_of_flatMap_eq (by simp) hsegments x (mem_ten x))

/-! ## Walls that are not drawn -/

theorem eq_last_of_up?_eq_none {i : Fin 10} (h : Cell.up? i = none) : i = Grid.last := by
  unfold Cell.up? at h
  split at h
  · cases h
  · exact Fin.ext (by simp only [Grid.last]; omega)

section Plans

variable {steps steps' : List FloorPlan.Step}

/-- A wall to the east or the south is drawn with the next cell, or it stands on the border. -/
theorem LooksLike.plan_eq (h : w.LooksLike v) (hw : w.plan = .built steps)
    (hv : v.plan = .built steps') : w.plan = v.plan := by
  have hopposite {a b : Cell} {d : Direction} (hab : a.neighbour? d = some b)
      (hb : w.plan.hasWall b d.opposite = v.plan.hasWall b d.opposite) :
      w.plan.hasWall a d = v.plan.hasWall a d := by
    rw [hw, hv] at hb ⊢
    rwa [FloorPlan.hasWall_built_opposite steps hab,
      FloorPlan.hasWall_built_opposite steps' hab] at hb
  have hwalls (c : Cell) (d : Direction) : w.plan.hasWall c d = v.plan.hasWall c d := by
    cases d with
    | north => exact h.north c
    | west => exact h.west c
    | east =>
      cases hn : c.neighbour? .east with
      | some n => exact hopposite hn (h.west n)
      | none =>
        have hx : c.x = Grid.last := eq_last_of_up?_eq_none (Option.map_eq_none_iff.1 hn)
        have heast := h.east c.y
        rwa [← hx] at heast
    | south =>
      cases hn : c.neighbour? .south with
      | some n => exact hopposite hn (h.north n)
      | none =>
        have hy : c.y = Grid.last := eq_last_of_up?_eq_none (Option.map_eq_none_iff.1 hn)
        have hsouth := h.south c.x
        rwa [← hy] at hsouth
  rw [hw, hv] at hwalls ⊢
  exact (FloorPlan.narrow_built steps).eq_of_hasWall_eq (FloorPlan.narrow_built steps') hwalls

end Plans

theorem LooksLike.pose_eq (h : w.LooksLike v) : w.pose = v.pose := by
  obtain ⟨hcell, hdirection⟩ := (eq_of_interior_eq (h.interior w.cell)).1 rfl
  exact Pose.ext hcell hdirection

theorem LooksLike.beeperCells_eq (h : w.LooksLike v) : w.beeperCells = v.beeperCells := by
  ext c
  simp only [beeperCells, Finset.mem_filter_univ]
  rw [(eq_of_interior_eq (h.interior c)).2]

/-- A picture shows everything. Worlds on floor plans that were constructed in any steps, set up by
any operations, are equal if their pictures are: the robot's place and direction, every beeper, also
the one under the robot, and every wall. A picture is twenty-one lines of forty-one characters, each
with a newline behind it. -/
theorem picture_determines_world {steps steps' : List FloorPlan.Step} {es es' : List Edit}
    (hw : (new (.built steps)).edits es = .ok w) (hv : (new (.built steps')).edits es' = .ok v) :
    (w.picture = v.picture → w = v) ∧
    ∃ lines : List (List Char), w.picture = String.ofList (lines.flatMap (· ++ ['\n'])) ∧
      lines.length = 21 ∧ ∀ line ∈ lines, line.length = 41 ∧ '\n' ∉ line := by
  refine ⟨fun h => ?_, w.pictureLines, rfl, ?_, fun line hline => ⟨?_, ?_⟩⟩
  · have hlooks := looksLike_of_picture_eq h
    have hplan := hlooks.plan_eq (plan_edits hw) (plan_edits hv)
    exact eq_of_beeperCells_eq hw hv hlooks.pose_eq hplan hlooks.beeperCells_eq
  · have hlength := congrArg List.length w.map_length_pictureLines
    rwa [List.length_map, List.length_replicate] at hlength
  · have hmem := List.mem_map_of_mem (f := List.length) hline
    rw [map_length_pictureLines] at hmem
    exact List.eq_of_mem_replicate hmem
  · exact w.newline_notMem_pictureLines line hline

/-- Beepers on all cells but the one under the robot. -/
def niche (c : Cell) (plan : FloorPlan) : World where
  pose := ⟨c, .south⟩
  beepers := Beepers.full.erase c
  plan := plan

/-- With a gap in the border and a wall beside the robot it is set up in two different ways, and the
pictures are the same. -/
theorem niche_picture_determines_world :
    let plan := FloorPlan.built [.change (.vertical 5 5), .change (.tearDown 0 0 .west)]
    let plan' := FloorPlan.built [.change (.horizontal 10 10), .change (.horizontal 3 10),
      .change (.tearDown 0 0 .west), .reopen, .change (.vertical 5 5)]
    (new plan).edits [.fill, .place 4 5 .south, .pick] = .ok (niche ⟨4, 5⟩ plan) ∧
    (new plan').edits [.beepers 0xffbfffffffffffff 0xfffffffffff, .place 3 5 .east, .move,
      .turn (-1)] = .ok (niche ⟨4, 5⟩ plan') ∧
    (niche ⟨4, 5⟩ plan).picture = (niche ⟨4, 5⟩ plan').picture ∧
    niche ⟨4, 5⟩ plan = niche ⟨4, 5⟩ plan' := by
  intro plan plan'
  have hw : (new plan).edits [.fill, .place 4 5 .south, .pick] = .ok (niche ⟨4, 5⟩ plan) := by rfl
  have hv : (new plan').edits [.beepers 0xffbfffffffffffff 0xfffffffffff, .place 3 5 .east, .move,
      .turn (-1)] = .ok (niche ⟨4, 5⟩ plan') := by rfl
  have hlines : (niche ⟨4, 5⟩ plan).pictureLines = (niche ⟨4, 5⟩ plan').pictureLines := by
    decide +kernel
  have hpicture := congrArg (fun ls => String.ofList (ls.flatMap (· ++ ['\n']))) hlines
  exact ⟨hw, hv, hpicture, (picture_determines_world hw hv).1 hpicture⟩

end World
end Karel
