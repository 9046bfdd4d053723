import Karel.Execution.Machine

/-! # Runs

A run takes steps until it rests. It always comes to rest: every step either counts against the
budget or lessens the work that is left until the next one that counts, and `Machine.step_decreases`
says so. Repeats of empty blocks, ends of blocks and returns do not count, which is why the budget
alone is no measure.
-/

namespace Karel

/-- The steps that a frame can take before the next one that counts. -/
def Frame.work : Frame → Nat
  | .block _ _ => 1
  | .repeat _ left => 2 * left + 1
  | .while _ _ _ => 2

def Frame.workOf : List Frame → Nat
  | [] => 0
  | f :: fs => f.work + workOf fs

/-- The steps that a phase can take before the frames are taken up again. -/
def Phase.work : Phase → Nat
  | .gate .askCancelled _ => 7
  | .gate .askPaused _ => 6
  | .gate .locked _ => 5
  | .gate .asleep _ => 0
  | .calling _ _ => 3
  | .running => 1
  | .testing _ _ _ _ => 2
  | .sensing _ _ yes no => 3 + Frame.workOf yes + Frame.workOf no
  | .acting _ _ => 9
  | .publishing _ _ _ => 8
  | .finished _ => 0
  | .lost _ => 0

namespace Frame

@[simp]
theorem workOf_nil : workOf [] = 0 := rfl

@[simp]
theorem workOf_cons (f : Frame) (fs : List Frame) : workOf (f :: fs) = f.work + workOf fs := rfl

@[simp]
theorem workOf_append (fs gs : List Frame) : workOf (fs ++ gs) = workOf fs + workOf gs := by
  induction fs with
  | nil => simp
  | cons f fs ih => simp [ih, Nat.add_assoc]

theorem workOf_ofBody_le (body : List Node) : workOf (ofBody body) ≤ 1 := by
  unfold ofBody
  split <;> simp [work]

end Frame

namespace Machine

/-- The steps that a machine can take before the next one that counts. -/
def work (m : Machine) : Nat := Frame.workOf m.frames + m.phase.work

/-- The steps that may still be counted, the one that breaks the budget included. -/
def budgetLeft (limits : Limits) (m : Machine) : Nat := limits.budget + 1 - m.steps

def Closer (limits : Limits) (m n : Machine) : Prop :=
  Prod.Lex (· < ·) (· < ·) (m.budgetLeft limits, m.work) (n.budgetLeft limits, n.work)

theorem Closer.of_work {limits : Limits} {m n : Machine} (hs : m.steps = n.steps)
    (hw : m.work < n.work) : Closer limits m n := by
  unfold Closer budgetLeft
  rw [hs]
  exact Prod.Lex.right _ hw

@[simp]
theorem work_finish (m : Machine) (outcome : Outcome) :
    (m.finish outcome).work = Frame.workOf m.frames := rfl

@[simp]
theorem work_fail (m : Machine) (line : Nat) (cause : Fault.Cause) :
    (m.fail line cause).work = Frame.workOf m.frames := rfl

theorem pass_work_le (e : Executable) (m : Machine) (starting : Bool) :
    (m.pass e starting).work ≤ Frame.workOf m.frames + 3 := by
  unfold pass
  repeat' split
  all_goals simp [work, Phase.work]

theorem pass_steps (e : Executable) (m : Machine) (starting : Bool) :
    (m.pass e starting).steps = m.steps := by
  unfold pass
  repeat' split
  all_goals rfl

theorem closer_pass {limits : Limits} (e : Executable) {m n : Machine} (starting : Bool)
    (hs : m.steps = n.steps) (hf : m.frames = n.frames) (hw : 3 < n.phase.work) :
    Closer limits (m.pass e starting) n := by
  apply Closer.of_work
  · rw [pass_steps, hs]
  · have := m.pass_work_le e starting
    rw [hf] at this
    simp only [work] at *
    omega

/-- A step that counts brings a machine closer to rest, whatever it does then. -/
theorem closer_charge {limits : Limits} {m n : Machine} {line : Nat} {next : Machine → Machine}
    (hs : m.steps = n.steps) (hf : Frame.workOf m.frames ≤ Frame.workOf n.frames)
    (hp : 0 < n.phase.work) (hn : ∀ k, (next k).steps = k.steps) :
    Closer limits (charge limits m line next) n := by
  unfold charge
  split
  · refine Closer.of_work hs ?_
    rw [work_finish]
    unfold work
    omega
  · by_cases hb : limits.budget < m.steps
    · have h1 : limits.budget < m.steps + 1 := by omega
      simp only [h1, if_true]
      unfold Closer
      rw [work_fail]
      have : budgetLeft limits (fail { m with steps := m.steps + 1 } line
          (.budgetExceeded limits.budget)) = n.budgetLeft limits := by
        simp only [budgetLeft, fail, finish]
        omega
      rw [this]
      refine Prod.Lex.right _ ?_
      change Frame.workOf m.frames < n.work
      unfold work
      omega
    · unfold Closer budgetLeft
      refine Prod.Lex.left _ _ ?_
      simp only [fail, finish]
      split
      · simp only
        omega
      · rw [hn]
        simp only
        omega

/-- A step of a machine that does not rest brings it closer to rest. -/
theorem step_decreases (e : Executable) (limits : Limits) (m : Machine)
    (h : m.isResting = false) : Closer limits (m.step e limits) m := by
  unfold step
  split
  case h_1 stage starting hp =>
    unfold passGate
    split
    · split
      · exact Closer.of_work rfl (by simp [work, finish, hp, Phase.work])
      · exact Closer.of_work rfl (by simp [work, hp, Phase.work])
    · split
      · exact Closer.of_work rfl (by simp [work, hp, Phase.work])
      · exact closer_pass e _ rfl rfl (by simp [hp, Phase.work])
    · split
      · exact Closer.of_work rfl (by simp [work, finish, hp, Phase.work])
      · split
        · split
          · exact Closer.of_work rfl (by simp [work, hp, Phase.work])
          · exact closer_pass e _ rfl rfl (by simp [hp, Phase.work])
        · exact closer_pass e _ rfl rfl (by simp [hp, Phase.work])
    · simp [isResting, hp] at h
  case h_2 target line hp =>
    unfold openCall
    split
    · exact Closer.of_work rfl (by simp [work, hp, Phase.work])
    · split
      · exact Closer.of_work rfl (by simp [work, fail, finish, hp, Phase.work])
      · exact Closer.of_work rfl (by simp [work, hp, Phase.work, Frame.work]; omega)
  case h_3 hp =>
    unfold takeFrame
    split
    case h_1 hf => exact Closer.of_work rfl (by simp [work, finish, hp, hf, Phase.work])
    case h_2 hf => exact Closer.of_work rfl (by simp [work, hp, hf, Frame.work])
    case h_3 node nodes call rest hf =>
      refine closer_charge rfl (by simp [hf, Frame.work]) (by simp [hp, Phase.work]) fun k => ?_
      cases node <;> rfl
    case h_4 hf => exact Closer.of_work rfl (by simp [work, hp, hf, Frame.work])
    case h_5 body n rest hf =>
      have := Frame.workOf_ofBody_le body
      exact Closer.of_work rfl (by simp [work, hp, hf, Frame.work]; omega)
    case h_6 hf =>
      exact Closer.of_work rfl (by simp [work, hp, hf, Frame.work, Phase.work]; omega)
  case h_4 hp => exact closer_charge rfl (Nat.le_refl _) (by simp [hp, Phase.work]) fun _ => rfl
  case h_5 c line yes no hp =>
    unfold sense
    split
    · exact Closer.of_work rfl (by simp [work, hp, Phase.work]; omega)
    · exact Closer.of_work rfl (by simp [work, hp, Phase.work]; omega)
    · exact Closer.of_work rfl (by simp [work, hp, Phase.work]; omega)
  case h_6 p line hp =>
    unfold attempt
    split
    · exact Closer.of_work rfl (by simp [work, fail, finish, hp, Phase.work])
    · exact Closer.of_work rfl (by simp [work, hp, Phase.work])
  case h_7 hp => exact Closer.of_work rfl (by simp [work, hp, Phase.work])
  case h_8 hp => simp [isResting, hp] at h
  case h_9 hp => simp [isResting, hp] at h

/-- The machine at rest to which a machine comes when it is left alone. -/
def run (e : Executable) (limits : Limits) (m : Machine) : Machine :=
  match h : m.isResting with
  | true => m
  | false =>
    have := step_decreases e limits m h
    run e limits (m.step e limits)
termination_by (m.budgetLeft limits, m.work)
decreasing_by exact this

theorem isResting_run (e : Executable) (limits : Limits) (m : Machine) :
    (m.run e limits).isResting = true := by
  fun_induction run e limits m with
  | case1 m h => exact h
  | case2 m h _ ih => exact ih

end Machine

/-- What is left of a run: how it ended, the steps it counted, its actions from the first to the
last and the world it left behind. -/
structure Report where
  outcome : Outcome
  steps : Nat
  trace : List Event
  world : World
  deriving DecidableEq

/-- The report of a machine that has ended; a run that still sleeps, or that called a routine which
is not there, has none. -/
def Machine.report? (m : Machine) : Option Report :=
  m.outcome?.map fun outcome => ⟨outcome, m.steps, m.trace.reverse, m.world⟩

/-- The undisturbed run of an executable on a world. -/
def Executable.run (e : Executable) (limits : Limits) (w : World) : Machine :=
  Machine.run e limits ⟨{}, w, [], 0, 0, [], .gate .askCancelled true⟩

end Karel
