import Mathlib.Algebra.Ring.Parity
import Karel.Proofs.Execution.Walk
import Karel.Proofs.World.BeeperCells

/-! # Beepers in a run

A run makes no beepers and loses none. A beeper is put down only where there was none and picked up
only where there was one, so every such action changes the number of beepers by one and changes what
is on its own cell, and no other action changes any of this. At every moment the beepers can be told
from those at the start and from the actions performed.
-/
namespace Karel

/-- Whether an action picks a beeper up on a cell or puts one down there. -/
def Event.handles (c : Cell) (a : Event) : Bool :=
  (a.primitive = .pickBeeper ∨ a.primitive = .dropBeeper) ∧ a.world.cell = c

def Event.times (p : Primitive) (trace : List Event) : Nat :=
  trace.countP fun a => a.primitive = p

theorem Event.times_cons (p : Primitive) (a : Event) (trace : List Event) :
    times p (a :: trace) = times p trace + if a.primitive = p then 1 else 0 := by
  simp only [times, List.countP_cons, decide_eq_true_eq]

namespace Event.Follows
variable {a : Event} {w : World}

theorem pickBeeper (h : a.Follows w) (hp : a.primitive = .pickBeeper) :
    w.beeperAt w.cell = true ∧ a.world = w.pickBeeper := by
  obtain ⟨hallowed, heffect⟩ := h
  rw [hp] at hallowed heffect
  refine ⟨?_, heffect⟩
  simp only [Primitive.check] at hallowed
  split at hallowed
  · assumption
  · cases hallowed

theorem dropBeeper (h : a.Follows w) (hp : a.primitive = .dropBeeper) :
    w.beeperAt w.cell = false ∧ a.world = w.dropBeeper w.cell := by
  obtain ⟨hallowed, heffect⟩ := h
  rw [hp] at hallowed heffect
  refine ⟨?_, heffect⟩
  simp only [Primitive.check] at hallowed
  split at hallowed
  · cases hallowed
  · next hoff => exact Bool.eq_false_iff.2 hoff

theorem beepers_eq (h : a.Follows w) (hpick : a.primitive ≠ .pickBeeper)
    (hdrop : a.primitive ≠ .dropBeeper) : a.world.beepers = w.beepers := by
  rw [h.effect]
  cases hp : a.primitive with
  | moveForward => exact w.beepers_moveForward
  | turnLeft | turnRight | turnAround => rfl
  | pickBeeper => exact absurd hp hpick
  | dropBeeper => exact absurd hp hdrop

end Event.Follows

/-- The books of a walk: from the beepers at the start and the actions performed, those that are
there now. -/
structure World.Accounts (w : World) (trace : List Event) (v : World) : Prop where
  trim : v.beepers.Trim
  count : v.beeperCount + Event.times .pickBeeper trace =
    w.beeperCount + Event.times .dropBeeper trace
  cell : ∀ c, v.beeperAt c = (w.beeperAt c ^^ decide (Odd (trace.countP (Event.handles c))))

namespace World.Accounts
variable {w v : World} {trace : List Event} {a : Event}

theorem start (hw : w.beepers.Trim) : w.Accounts [] w := by
  refine ⟨hw, rfl, fun c => ?_⟩
  simp

/-- An action on a beeper changes what is on its own cell and nothing else. -/
theorem cell_step (h : w.Accounts trace v)
    (hp : a.primitive = .pickBeeper ∨ a.primitive = .dropBeeper) (hcell : a.world.cell = v.cell)
    (hown : a.world.beeperAt v.cell = !v.beeperAt v.cell)
    (hother : ∀ c, v.cell ≠ c → a.world.beeperAt c = v.beeperAt c) (c : Cell) :
    a.world.beeperAt c =
      (w.beeperAt c ^^ decide (Odd ((a :: trace).countP (Event.handles c)))) := by
  by_cases hc : v.cell = c
  · have hhandles : a.handles c = true := decide_eq_true ⟨hp, hcell.trans hc⟩
    have hodd (n : Nat) : decide (Odd (n + 1)) = !decide (Odd n) := by
      rw [← decide_not]
      exact decide_eq_decide.2 Nat.odd_add_one
    rw [List.countP_cons_of_pos hhandles, hodd, Bool.xor_not, ← h.cell, ← hc]
    exact hown
  · have hhandles : ¬ a.handles c = true := fun ha => hc (hcell.symm.trans (of_decide_eq_true ha).2)
    rw [List.countP_cons_of_neg hhandles, ← h.cell]
    exact hother c hc

theorem pick (h : w.Accounts trace v) (hp : a.primitive = .pickBeeper) (ha : a.Follows v) :
    w.Accounts (a :: trace) a.world := by
  obtain ⟨hon, hworld⟩ := ha.pickBeeper hp
  have htrim : v.pickBeeper.beepers.Trim := h.trim.erase v.cell
  -- the check has seen a beeper here, without which the number would stay the same
  have hfewer : v.pickBeeper.beeperCount + 1 = v.beeperCount := by
    have hmem : v.cell ∈ v.beepers.cells := Beepers.mem_cells.2 hon
    rw [beeperCount, beeperCount, htrim.count_eq_card, h.trim.count_eq_card, pickBeeper,
      Beepers.cells_erase, Finset.card_erase_add_one hmem]
  refine ⟨hworld ▸ htrim, ?_, h.cell_step (.inl hp) (hworld ▸ rfl) ?_ ?_⟩
  · have hbefore := h.count
    rw [hworld, Event.times_cons, Event.times_cons, hp, if_pos rfl, if_neg (by decide)]
    omega
  · rw [hworld, hon]
    exact v.beepers.contains_erase v.cell
  · intro c hc
    rw [hworld]
    exact Beepers.contains_erase_of_ne hc

theorem drop (h : w.Accounts trace v) (hp : a.primitive = .dropBeeper) (ha : a.Follows v) :
    w.Accounts (a :: trace) a.world := by
  obtain ⟨hoff, hworld⟩ := ha.dropBeeper hp
  have htrim : (v.dropBeeper v.cell).beepers.Trim := h.trim.insert v.cell
  have hmore : (v.dropBeeper v.cell).beeperCount = v.beeperCount + 1 := by
    have hmem : v.cell ∉ v.beepers.cells := mt Beepers.mem_cells.1 (Bool.eq_false_iff.1 hoff)
    rw [beeperCount, beeperCount, htrim.count_eq_card, h.trim.count_eq_card, dropBeeper,
      Beepers.cells_insert, Finset.card_insert_of_notMem hmem]
  refine ⟨hworld ▸ htrim, ?_, h.cell_step (.inr hp) (hworld ▸ rfl) ?_ ?_⟩
  · have hbefore := h.count
    rw [hworld, Event.times_cons, Event.times_cons, hp, if_neg (by decide), if_pos rfl]
    omega
  · rw [hworld, hoff]
    exact v.beepers.contains_insert v.cell
  · intro c hc
    rw [hworld]
    exact Beepers.contains_insert_of_ne hc

theorem other (h : w.Accounts trace v) (hpick : a.primitive ≠ .pickBeeper)
    (hdrop : a.primitive ≠ .dropBeeper) (ha : a.Follows v) :
    w.Accounts (a :: trace) a.world := by
  have hbeepers := ha.beepers_eq hpick hdrop
  refine ⟨hbeepers ▸ h.trim, ?_, fun c => ?_⟩
  · rw [Event.times_cons, Event.times_cons, if_neg hpick, if_neg hdrop, beeperCount, hbeepers]
    exact h.count
  · have hhandles : ¬ a.handles c = true := by simp [Event.handles, hpick, hdrop]
    rw [List.countP_cons_of_neg hhandles, beeperAt, hbeepers]
    exact h.cell c

theorem act (h : w.Accounts trace v) (ha : a.Follows v) : w.Accounts (a :: trace) a.world := by
  by_cases hpick : a.primitive = .pickBeeper
  · exact h.pick hpick ha
  · by_cases hdrop : a.primitive = .dropBeeper
    · exact h.drop hdrop ha
    · exact h.other hpick hdrop ha

end World.Accounts

theorem Walk.accounts {w v : World} {trace : List Event} (h : Walk w trace v)
    (hw : w.beepers.Trim) : w.Accounts trace v := by
  induction h with
  | stay => exact .start hw
  | act _ ha ih => exact ih.act ha

/-- The number of beepers is that of the start, with one more for every beeper put down and one less
for every one picked up, and a cell has changed if beepers on it were handled an odd number of
times. -/
structure Machine.Conserves (w : World) (m : Machine) : Prop where
  count : (m.world.beeperCount : Int) =
    w.beeperCount + Event.times .dropBeeper m.trace - Event.times .pickBeeper m.trace
  cell : ∀ c, m.world.beeperAt c =
    (w.beeperAt c ^^ decide (Odd (m.trace.countP (Event.handles c))))

/-- Under any schedule and at every moment a run conserves the beepers of the world that it starts
in, if operations have made that world out of one without beepers. -/
theorem Executable.beepers_conserved (e : Executable) (limits : Limits) {plan : FloorPlan}
    {es : List World.Edit} {w : World} (hw : (World.new plan).edits es = .ok w) (ms : List Move) :
    ((Machine.start w).moves e limits ms).Conserves w := by
  have hwalk : Walk w ((Machine.start w).moves e limits ms).trace _ :=
    ((Machine.onWalk_start w).moves ms).walk
  have haccounts := hwalk.accounts (World.trim_of_edits_new hw)
  refine ⟨?_, haccounts.cell⟩
  have hcount := haccounts.count
  omega

/-- A robot that puts two beepers down, picks one up between them, and is refused in the end. -/
def Executable.gardener : Executable where
  entry := 0
  routines :=
    [⟨"main", [.action .dropBeeper 2, .action .moveForward 3, .action .pickBeeper 4,
      .action .dropBeeper 5, .action .dropBeeper 6], 1⟩]

def World.garden : World where
  pose := startPose
  beepers := ⟨0, 0x808000000⟩
  plan := .empty

/-- A run that is held after its first action and then let go. -/
def Move.heldOnce : List Move :=
  .signal .step :: List.replicate 12 .step ++ .signal .resume :: List.replicate 40 .step

theorem Executable.gardener_beepers_conserved :
    (World.new .empty).edits [.drop 1 9, .drop 9 9] = .ok World.garden ∧
      ∃ m, m = (Machine.start World.garden).moves gardener {} Move.heldOnce ∧
        m.Conserves World.garden ∧ m.outcome? = some (.fault ⟨6, .beeperPresent ⟨1, 9⟩⟩) ∧
        Event.times .dropBeeper m.trace = 2 ∧ Event.times .pickBeeper m.trace = 1 ∧
        m.trace.countP (Event.handles ⟨1, 9⟩) = 2 ∧ m.world.beeperCount = 3 := by
  have hw : (World.new .empty).edits [.drop 1 9, .drop 9 9] = .ok World.garden := by rfl
  exact ⟨hw, _, rfl, beepers_conserved gardener {} hw Move.heldOnce, by decide +kernel⟩

end Karel
