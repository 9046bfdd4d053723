import Karel.Proofs.Execution.Controlled

/-! # Runs as walks

Whatever the program and whoever controls it, a run is a walk on the grid: every action is one that
the robot may perform where it stands, it leads to the world that is published, and the world that
is there at any moment is the one of the latest action. A run that the grid stops has the cause from
the world that it leaves behind.
-/
namespace Karel

/-- The world after some actions. -/
def World.after (w : World) (events : List Event) : World :=
  (events.getLast?.map Event.world).getD w

/-- An action that the robot may perform in a world, with what it does there. -/
structure Event.Follows (a : Event) (w : World) : Prop where
  allowed : a.primitive.check w = .ok ()
  effect : a.world = a.primitive.apply w

/-- From one world to another the robot goes on to the next cell, and there is no wall between. -/
structure World.StepsAhead (w next : World) : Prop where
  column : (next.cell.x : Int) = w.cell.x + w.direction.offset.1
  row : (next.cell.y : Int) = w.cell.y + w.direction.offset.2
  direction : next.direction = w.direction
  noWall : w.plan.hasWall w.cell w.direction = false

namespace Fault.Cause

/-- Whether a cause comes from the grid and not from a limit. -/
def isOfGrid : Fault.Cause → Bool
  | .blocked _ | .noBeeper _ | .beeperPresent _ => true
  | .depthExceeded _ _ | .budgetExceeded _ => false

/-- A cause that names the place of the robot. -/
def Names (w : World) : Fault.Cause → Prop
  | .blocked pose => pose = w.pose
  | .noBeeper cell => cell = w.cell
  | .beeperPresent cell => cell = w.cell
  | .depthExceeded _ _ | .budgetExceeded _ => False

end Fault.Cause

/-- Where the way ahead is clear, the robot does not stay. -/
theorem World.stepsAhead_moveForward {w : World} (h : w.frontIsClear = true) :
    w.StepsAhead w.moveForward := by
  unfold frontIsClear isClear at h
  rw [Bool.and_eq_true, Bool.not_eq_true'] at h
  obtain ⟨hwall, hsome⟩ := h
  obtain ⟨c, hc⟩ := Option.isSome_iff_exists.1 hsome
  have hmove : w.moveForward = { w with pose := { w.pose with cell := c } } := by
    simp only [moveForward, hc]
  obtain ⟨hx, hy⟩ := Cell.neighbour?_eq_some_iff.1 hc
  rw [hmove]
  exact ⟨hx, hy, rfl, hwall⟩

namespace Primitive

theorem plan_apply (p : Primitive) (w : World) : (p.apply w).plan = w.plan := by
  cases p with
  | moveForward =>
    simp only [apply, World.moveForward]
    split <;> rfl
  | _ => rfl

theorem frontIsClear_of_check {w : World} (h : moveForward.check w = .ok ()) :
    w.frontIsClear = true := by
  simp only [check] at h
  split at h
  · assumption
  · cases h

/-- Only the grid refuses an action, and it names the robot's place. -/
theorem names_of_check {p : Primitive} {w : World} {cause : Fault.Cause}
    (h : p.check w = .error cause) : cause.Names w := by
  cases p with
  | moveForward | pickBeeper | dropBeeper =>
    simp only [check] at h
    split at h <;> cases h
    rfl
  | turnLeft | turnRight | turnAround => cases h

end Primitive

theorem Event.Follows.plan {a : Event} {w : World} (h : a.Follows w) : a.world.plan = w.plan := by
  rw [h.effect, Primitive.plan_apply]

theorem Event.Follows.stepsAhead {a : Event} {w : World} (h : a.Follows w)
    (hp : a.primitive = .moveForward) : w.StepsAhead a.world := by
  have hallowed := h.allowed
  rw [hp] at hallowed
  rw [h.effect, hp]
  exact World.stepsAhead_moveForward (Primitive.frontIsClear_of_check hallowed)

/-- Actions, the latest first, each of which follows on the one before, and where they lead. -/
inductive Walk (w : World) : List Event → World → Prop where
  | stay : Walk w [] w
  | act {trace : List Event} {v : World} {a : Event} (h : Walk w trace v) (ha : a.Follows v) :
      Walk w (a :: trace) a.world

namespace Walk
variable {w v : World} {trace : List Event}

theorem world_eq (h : Walk w trace v) : v = w.after trace.reverse := by
  cases h with
  | stay => rfl
  | act h ha => simp [World.after]

theorem plan_eq (h : Walk w trace v) : v.plan = w.plan := by
  induction h with
  | stay => rfl
  | act h ha ih => rw [ha.plan, ih]

/-- Every action of a walk follows on the walk before it. -/
theorem split {later past : List Event} {a : Event} (h : Walk w (later ++ a :: past) v) :
    ∃ u, Walk w past u ∧ a.Follows u := by
  induction later generalizing v with
  | nil =>
    cases h with
    | act h ha => exact ⟨_, h, ha⟩
  | cons b later ih =>
    cases h with
    | act h hb => exact ih h

theorem follows {past later : List Event} {a : Event} (h : Walk w trace v)
    (ht : trace.reverse = past ++ a :: later) : a.Follows (w.after past) := by
  have ht' : trace = later.reverse ++ a :: past.reverse := by
    rw [← List.reverse_reverse trace, ht]
    simp
  rw [ht'] at h
  obtain ⟨u, hu, ha⟩ := h.split
  have hworld := hu.world_eq
  rw [List.reverse_reverse] at hworld
  exact hworld ▸ ha

theorem plan_of_mem {a : Event} (h : Walk w trace v) (ha : a ∈ trace) :
    a.world.plan = w.plan := by
  obtain ⟨later, past, rfl⟩ := List.append_of_mem ha
  obtain ⟨u, hu, hfollows⟩ := h.split
  exact hfollows.plan.trans hu.plan_eq

end Walk

/-- What a phase says about the world is true of it. -/
def Phase.Grounded (w : World) : Phase → Prop
  | .publishing p line next => Event.Follows ⟨p, line, next⟩ w
  | .finished (.fault f) => f.cause.isOfGrid = true → ∃ p : Primitive, p.check w = .error f.cause
  | _ => True

namespace Machine
variable {e : Executable} {limits : Limits} {m n : Machine}

/-- A run that has walked from a world to the one that is there now. -/
structure OnWalk (w : World) (m : Machine) : Prop where
  walk : Walk w m.trace m.world
  grounded : m.phase.Grounded m.world

theorem grounded_pass (m : Machine) (starting : Bool) (w : World) :
    (m.pass e starting).phase.Grounded w := by
  unfold pass
  repeat' split
  all_goals trivial

theorem Turn.grounded (h : Turn e limits m n) : n.phase.Grounded n.world := by
  cases h with
  | permit | pass => exact grounded_pass _ _ _
  | @node node nodes call rest hp => cases node <;> simp [execute, Phase.Grounded, hp]
  | leave hp | repeatDone hp | repeatAgain hp => simp [Phase.Grounded, hp]
  | tooDeep | overAtNode | overAtTest => exact fun h => by cases h
  | refuse hp ha => exact fun _ => ⟨_, ha⟩
  | accept hp ha => exact ⟨ha, rfl⟩
  | _ => trivial

theorem OnWalk.turn {w : World} (hm : m.OnWalk w) (h : Turn e limits m n) : n.OnWalk w := by
  refine ⟨?_, h.grounded⟩
  rcases h.quiet_or_publish with ⟨htrace, hworld⟩ | ⟨p, line, next, hp, rfl⟩
  · rw [htrace, hworld]
    exact hm.walk
  · have hfollows := hm.grounded
    rw [hp] at hfollows
    exact .act hm.walk hfollows

theorem OnWalk.nudge {w : World} (hm : m.OnWalk w) (h : Nudge m n) : n.OnWalk w := by
  cases h with
  | flags c => exact ⟨hm.walk, hm.grounded⟩
  | wake c hp => exact ⟨hm.walk, trivial⟩

theorem OnWalk.moves {w : World} (hm : m.OnWalk w) (ms : List Move) :
    (m.moves e limits ms).OnWalk w :=
  moves_keeps_of_turn (fun _ hk => hk.turn) (fun _ _ hk => hk.nudge) ms hm

theorem onWalk_start (w : World) : (start w).OnWalk w := ⟨.stay, trivial⟩

/-- What a walk from a world shows: each action was allowed in the world before it and leads to the
world noted with it, on the floor plan of the start, and a step ahead goes to the next cell, where
no wall is in between. The world is the one of the latest action, however the run ends. If the grid
is the cause of its end, that is the refusal of some action in the world that is left, and it names
the place there. That the robot stays inside the grid is a fact of the type `Cell`: `neighbour?`
gives no cell beyond the border, and `moveForward` goes nowhere else. -/
structure Walks (w : World) (m : Machine) : Prop where
  legal : ∀ past a later, m.trace.reverse = past ++ a :: later → a.Follows (w.after past)
  plan : ∀ a ∈ m.trace, a.world.plan = w.plan
  inGrid : ∀ a ∈ m.trace, a.world.cell.x < Grid.width ∧ a.world.cell.y < Grid.height
  ahead : ∀ past a later, m.trace.reverse = past ++ a :: later → a.primitive = .moveForward →
    (w.after past).StepsAhead a.world
  world : m.world = w.after m.trace.reverse
  refusal : ∀ line cause, m.phase = .finished (.fault ⟨line, cause⟩) → cause.isOfGrid = true →
    (∃ p : Primitive, p.check m.world = .error cause) ∧ cause.Names m.world

theorem OnWalk.walks {w : World} (hm : m.OnWalk w) : m.Walks w where
  legal _ _ _ ht := hm.walk.follows ht
  plan _ ha := hm.walk.plan_of_mem ha
  inGrid a _ := ⟨a.world.cell.x.isLt, a.world.cell.y.isLt⟩
  ahead _ _ _ ht := (hm.walk.follows ht).stepsAhead
  world := hm.walk.world_eq
  refusal line cause hp hgrid := by
    have hground := hm.grounded
    rw [hp] at hground
    obtain ⟨p, hcheck⟩ := hground hgrid
    exact ⟨⟨p, hcheck⟩, Primitive.names_of_check hcheck⟩

end Machine

/-- Under any schedule every run is a walk from the world it starts in. -/
theorem Executable.controlled_run_walks (e : Executable) (limits : Limits) (w : World)
    (ms : List Move) : ((Machine.start w).moves e limits ms).Walks w :=
  ((Machine.onWalk_start w).moves ms).walks

end Karel
