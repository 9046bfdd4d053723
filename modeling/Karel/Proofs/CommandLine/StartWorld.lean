import Mathlib.Algebra.Group.Nat.Even
import Karel.CommandLine.Arguments
import Karel.Proofs.CommandLine.Values
import Karel.Proofs.World.BeeperCells

/-! # The world that the arguments describe

A cell that is flipped several times depends only on whether their number is odd. So the world on
which a run starts is told by the fill, by how often each cell is named and by the pose, and the
order in which cells are named does not matter.
-/
namespace Karel

theorem Beepers.contains_toggle (b : Beepers) (c d : Cell) :
    (b.toggle c).contains d = (b.contains d ^^ decide (c = d)) := by
  have hmem : d ∈ (b.toggle c).cells ↔ d ∈ symmDiff b.cells {c} := by rw [cells_toggle]
  rw [Bool.eq_iff_iff, ← mem_cells, hmem, Finset.mem_symmDiff, mem_cells, Finset.mem_singleton]
  by_cases h : c = d
  · simp [h]
  · simp [h, Ne.symm h]

namespace World

theorem beeperAt_toggles (w : World) (cs : List Cell) (c : Cell) :
    (cs.foldl toggleBeeper w).beeperAt c = (w.beeperAt c ^^ decide (Odd (cs.count c))) := by
  induction cs generalizing w with
  | nil => simp
  | cons a cs ih =>
    have htoggle : (w.toggleBeeper a).beeperAt c = (w.beeperAt c ^^ decide (a = c)) :=
      w.beepers.contains_toggle a c
    rw [List.foldl_cons, ih, htoggle]
    by_cases h : a = c
    · subst h
      have hodd : decide (Odd (cs.count a + 1)) = !decide (Odd (cs.count a)) := by
        rw [← decide_not]
        exact decide_eq_decide.2 Nat.odd_add_one
      rw [List.count_cons_self, hodd, decide_eq_true rfl, Bool.xor_assoc, Bool.true_xor]
    · rw [List.count_cons_of_ne h]
      simp [h]

theorem pose_toggles (w : World) (cs : List Cell) : (cs.foldl toggleBeeper w).pose = w.pose := by
  induction cs generalizing w with
  | nil => rfl
  | cons a cs ih => exact ih _

theorem edits_append (w : World) (es es' : List Edit) :
    w.edits (es ++ es') = w.edits es >>= fun v => v.edits es' :=
  List.foldlM_append

theorem edits_toggles (w : World) (cs : List Cell) :
    w.edits (cs.map fun c => .toggle c.x c.y) = .ok (cs.foldl toggleBeeper w) := by
  induction cs generalizing w with
  | nil => rfl
  | cons a cs ih =>
    have hedit : w.edit (.toggle a.x a.y) = .ok (w.toggleBeeper a) := map_ofCoords _ a
    rw [List.map_cons, edits, List.foldlM_cons, hedit]
    exact ih _

theorem beeperAt_empty (c : Cell) : empty.beeperAt c = false := by
  simp [beeperAt, empty, new, Beepers.contains, Beepers.empty]

theorem beeperAt_fill (w : World) (c : Cell) : w.fill.beeperAt c = true := by
  have hc : c ∈ Beepers.full.cells := by
    rw [Beepers.cells_full]
    exact Finset.mem_univ c
  exact Beepers.mem_cells.1 hc

end World

namespace CommandLine.RunArguments

variable {a b : RunArguments} {cells : List String} {at? : Option String}

/-- The texts of cells and of a pose that were read for some arguments. -/
structure Given (a : RunArguments) (cells : List String) (at? : Option String) : Prop where
  beepers : cells.map readCell = a.beepers.map .ok
  pose : at?.map readPose = a.pose.map .ok

/-- What the arguments ask to be done to the empty world, with coordinates as numbers. -/
def edits (a : RunArguments) : List World.Edit :=
  (if a.fill then [.fill] else []) ++ (a.beepers.map fun c => .toggle c.x c.y) ++
    a.pose.toList.map fun p => .place p.cell.x p.cell.y p.direction

/-- The world before a cell is flipped. -/
def ground (a : RunArguments) : World := if a.fill then World.empty.fill else World.empty

theorem beeperAt_ground (a : RunArguments) (c : Cell) : a.ground.beeperAt c = a.fill := by
  unfold ground
  cases a.fill with
  | true => exact World.beeperAt_fill _ c
  | false => exact World.beeperAt_empty c

theorem pose_ground (a : RunArguments) : a.ground.pose = World.startPose := by
  unfold ground
  cases a.fill <;> rfl

theorem startWorld_eq (a : RunArguments) :
    a.startWorld = { a.beepers.foldl World.toggleBeeper a.ground with
      pose := a.pose.getD World.startPose } := by
  unfold startWorld
  cases a.pose with
  | some p => rfl
  | none => exact World.ext ((World.pose_toggles _ _).trans a.pose_ground) rfl rfl

/-- No coordinate of the arguments is outside the grid. -/
theorem edits_startWorld (a : RunArguments) : World.empty.edits a.edits = .ok a.startWorld := by
  have hfill : World.empty.edits (if a.fill then [.fill] else []) = .ok a.ground := by
    unfold ground
    cases a.fill <;> rfl
  rw [edits, World.edits_append, World.edits_append, hfill]
  change World.edits a.ground _ >>= _ = _
  rw [World.edits_toggles]
  unfold startWorld
  cases a.pose with
  | none => rfl
  | some p =>
    have hplace : ∀ w : World,
        w.edit (.place p.cell.x p.cell.y p.direction) = .ok (w.withPose p) :=
      fun w => World.map_ofCoords (fun c => w.withPose ⟨c, p.direction⟩) p.cell
    change World.edits _ [.place p.cell.x p.cell.y p.direction] = _
    rw [World.edits, List.foldlM_cons, hplace]
    rfl

theorem beeperAt_startWorld (a : RunArguments) (c : Cell) :
    a.startWorld.beeperAt c = (a.fill ^^ decide (Odd (a.beepers.count c))) := by
  rw [startWorld_eq, ← beeperAt_ground a c]
  exact World.beeperAt_toggles a.ground a.beepers c

theorem pose_startWorld (a : RunArguments) : a.startWorld.pose = a.pose.getD World.startPose := by
  rw [startWorld_eq]

theorem plan_startWorld (a : RunArguments) : a.startWorld.plan = .empty := by
  rw [World.plan_edits a.edits_startWorld, World.empty, World.new]

theorem Given.perm {cells' : List String} (ha : a.Given cells at?) (hb : b.Given cells' at?)
    (h : cells'.Perm cells) : b.beepers.Perm a.beepers := by
  have hread := h.map readCell
  rw [ha.beepers, hb.beepers] at hread
  exact (List.map_perm_map_iff fun _ _ => Except.ok.inj).1 hread

theorem Given.pose_eq {cells' : List String} (ha : a.Given cells at?) (hb : b.Given cells' at?) :
    b.pose = a.pose :=
  Option.map_injective (fun _ _ => Except.ok.inj) (hb.pose.symm.trans ha.pose)

/-- Arguments with the same fill, the same pose and each cell as often describe one world. -/
theorem startWorld_eq_of_perm (hbeepers : b.beepers.Perm a.beepers) (hpose : b.pose = a.pose)
    (hfill : b.fill = a.fill) : b.startWorld = a.startWorld := by
  have hposes : b.startWorld.pose = a.startWorld.pose := by
    rw [pose_startWorld, pose_startWorld, hpose]
  have hplans : b.startWorld.plan = a.startWorld.plan := by
    rw [plan_startWorld, plan_startWorld]
  refine World.eq_of_beeperCells_eq b.edits_startWorld a.edits_startWorld hposes hplans ?_
  ext c
  simp only [World.beeperCells, Finset.mem_filter_univ]
  rw [beeperAt_startWorld, beeperAt_startWorld, hfill, hbeepers.count_eq]

theorem Given.count_eq (h : a.Given cells at?) (c : Cell) :
    (cells.map readCell).count (.ok c) = a.beepers.count c := by
  rw [h.beepers]
  exact List.count_map_of_injective _ _ (fun _ _ => Except.ok.inj) c

theorem Given.readPose_eq (h : a.Given cells at?) {text : String} (htext : text ∈ at?) :
    readPose text = .ok a.startWorld.pose := by
  have hpose := h.pose
  rw [Option.mem_def.1 htext, Option.map_some] at hpose
  obtain ⟨p, hp, hread⟩ := Option.map_eq_some_iff.1 hpose.symm
  rw [pose_startWorld, hp, ← hread]
  rfl

/-- The command line builds the world that its flags describe. Nothing that the arguments ask for is
outside the grid. A cell has a beeper if the world is filled or else if its text is there an odd
number of times, but not if both; the order of the texts does not matter. The robot stands where the
text of the pose says, or else in the corner, and there are no walls inside. The texts that can be
read are those that are written as cells and poses are. -/
theorem startWorld_as_given (h : a.Given cells at?) :
    World.empty.edits a.edits = .ok a.startWorld ∧
    (∀ c, a.startWorld.beeperAt c =
      (a.fill ^^ decide (Odd ((cells.map readCell).count (.ok c))))) ∧
    (∀ (b : RunArguments) (cells' : List String), cells'.Perm cells → b.Given cells' at? →
      b.fill = a.fill → b.startWorld = a.startWorld) ∧
    (∀ text ∈ at?, readPose text = .ok a.startWorld.pose) ∧
    (at? = none → a.startWorld.pose = ⟨⟨0, 9⟩, .east⟩) ∧
    a.startWorld.plan = .empty ∧
    (∀ text c, readCell text = .ok c ↔ WritesCell text c) ∧
    ∀ text p, readPose text = .ok p ↔ WritesPose text p := by
  refine ⟨a.edits_startWorld, fun c => ?_, fun b cells' hperm hb hfill => ?_,
    fun text htext => h.readPose_eq htext, fun hnone => ?_, a.plan_startWorld,
    fun text c => readCell_eq_ok_iff, fun text p => readPose_eq_ok_iff⟩
  · rw [h.count_eq]
    exact a.beeperAt_startWorld c
  · exact startWorld_eq_of_perm (h.perm hb hperm) (h.pose_eq hb) hfill
  · have hpose : a.pose = none := by
      have hmap := h.pose
      rw [hnone, Option.map_none] at hmap
      exact Option.map_eq_none_iff.1 hmap.symm
    rw [pose_startWorld, hpose]
    rfl

/-- Arguments that ask for a filled grid. -/
def filled (pose : Pose) (beepers : List Cell) : RunArguments where
  file := "sweep.k"
  entry := none
  pose := some pose
  beepers := beepers
  fill := true
  delay := standardDelay
  limits := {}
  quiet := false

/-- One cell is cleared, and another one is flipped back. -/
theorem filled_startWorld_as_given :
    let a := filled ⟨⟨4, 2⟩, .north⟩ [⟨3, 7⟩, ⟨9, 0⟩, ⟨3, 7⟩]
    let b := filled ⟨⟨4, 2⟩, .north⟩ [⟨9, 0⟩, ⟨3, 7⟩, ⟨3, 7⟩]
    a.Given [" +3,007 ", "9,0", "3,\t7"] (some "4,2 , North") ∧
    b.Given ["9,0", " +3,007 ", "3,\t7"] (some "4,2 , North") ∧
    a.startWorld.beeperAt ⟨3, 7⟩ = true ∧ a.startWorld.beeperAt ⟨9, 0⟩ = false ∧
    b.startWorld = a.startWorld ∧ a.startWorld.pose = ⟨⟨4, 2⟩, .north⟩ ∧
    (∀ c, ¬ WritesCell "3,7,1" c) ∧ ∀ p, ¬ WritesPose "4,2,n.e" p := by
  intro a b
  have ha : a.Given [" +3,007 ", "9,0", "3,\t7"] (some "4,2 , North") :=
    ⟨by decide +kernel, by decide +kernel⟩
  have hb : b.Given ["9,0", " +3,007 ", "3,\t7"] (some "4,2 , North") :=
    ⟨by decide +kernel, by decide +kernel⟩
  obtain ⟨-, hbeepers, hperm, hpose, -, -, hcell, hplace⟩ := startWorld_as_given ha
  refine ⟨ha, hb, ?_, ?_, hperm b _ (.swap _ _ _) hb rfl, ?_, fun c hc => ?_, fun p hp => ?_⟩
  · rw [hbeepers, ha.count_eq]
    decide
  · rw [hbeepers, ha.count_eq]
    decide
  · have hread : readPose "4,2 , North" = .ok ⟨⟨4, 2⟩, .north⟩ := by decide +kernel
    exact Except.ok.inj ((hpose _ rfl).symm.trans hread)
  · have hread : readCell "3,7,1" = .error (.badCoordinate "y" "7,1") := by decide +kernel
    cases hread.symm.trans ((hcell _ _).2 hc)
  · have hread : readPose "4,2,n.e" = .error (.unknownDirection "n.e") := by decide +kernel
    cases hread.symm.trans ((hplace _ _).2 hp)

end CommandLine.RunArguments

end Karel
