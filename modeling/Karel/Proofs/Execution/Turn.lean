import Karel.Execution.Run

/-! # What a step can do

`Turn m n` lists the steps that lead from a machine that does not rest to the next one, each with
what allows it. An invariant of runs is a case distinction over turns and does not look into the
definition of the step. The steps that count appear three times, since the run may be cancelled or
beyond its budget when it counts.
-/
namespace Karel
namespace Machine

/-- A step of a machine that does not rest. -/
inductive Turn (e : Executable) (limits : Limits) (m : Machine) : Machine → Prop where
  | cancelAtGate {stage : Gate} {starting : Bool} (hp : m.phase = .gate stage starting)
      (hc : m.control.cancelled = true) : Turn e limits m (m.finish .cancelled)
  | ask {starting : Bool} (hp : m.phase = .gate .askCancelled starting)
      (hc : m.control.cancelled = false) :
      Turn e limits m { m with phase := .gate .askPaused starting }
  | lock {starting : Bool} (hp : m.phase = .gate .askPaused starting)
      (hq : m.control.paused = true) :
      Turn e limits m { m with phase := .gate .locked starting }
  | sleep {starting : Bool} (hp : m.phase = .gate .locked starting)
      (hc : m.control.cancelled = false) (hq : m.control.paused = true)
      (hn : m.control.permits = 0) :
      Turn e limits m { m with phase := .gate .asleep starting }
  | permit {starting : Bool} {n : Nat} (hp : m.phase = .gate .locked starting)
      (hc : m.control.cancelled = false) (hq : m.control.paused = true)
      (hn : m.control.permits = n + 1) :
      Turn e limits m ({ m with control := { m.control with permits := n } }.pass e starting)
  | pass {stage : Gate} {starting : Bool} (hp : m.phase = .gate stage starting)
      (hq : m.control.paused = false) : Turn e limits m (m.pass e starting)
  | call {target line : Nat} {r : Routine} (hp : m.phase = .calling target line)
      (hr : e.routines[target]? = some r) (hd : m.depth < limits.depth) :
      Turn e limits m
        { m with
          depth := m.depth + 1, frames := .block r.body true :: m.frames, phase := .running }
  | tooDeep {target line : Nat} {r : Routine} (hp : m.phase = .calling target line)
      (hr : e.routines[target]? = some r) (hd : limits.depth ≤ m.depth) :
      Turn e limits m (m.fail line (.depthExceeded r.name limits.depth))
  | stray {target line : Nat} (hp : m.phase = .calling target line)
      (hr : e.routines[target]? = none) : Turn e limits m { m with phase := .lost target }
  | complete (hp : m.phase = .running) (hf : m.frames = []) :
      Turn e limits m (m.finish .completed)
  | leave {call : Bool} {rest : List Frame} (hp : m.phase = .running)
      (hf : m.frames = .block [] call :: rest) :
      Turn e limits m
        { m with frames := rest, depth := if call then m.depth - 1 else m.depth }
  | cancelAtNode {node : Node} {nodes : List Node} {call : Bool} {rest : List Frame}
      (hp : m.phase = .running) (hf : m.frames = .block (node :: nodes) call :: rest)
      (hc : m.control.cancelled = true) :
      Turn e limits m ({ m with frames := .block nodes call :: rest }.finish .cancelled)
  | overAtNode {node : Node} {nodes : List Node} {call : Bool} {rest : List Frame}
      (hp : m.phase = .running) (hf : m.frames = .block (node :: nodes) call :: rest)
      (hc : m.control.cancelled = false) (hb : limits.budget < m.steps + 1) :
      Turn e limits m
        ({ m with frames := .block nodes call :: rest, steps := m.steps + 1 }.fail node.line
          (.budgetExceeded limits.budget))
  | node {node : Node} {nodes : List Node} {call : Bool} {rest : List Frame}
      (hp : m.phase = .running) (hf : m.frames = .block (node :: nodes) call :: rest)
      (hc : m.control.cancelled = false) (hb : m.steps + 1 ≤ limits.budget) :
      Turn e limits m
        (execute node { m with frames := .block nodes call :: rest, steps := m.steps + 1 })
  | repeatDone {body : List Node} {rest : List Frame} (hp : m.phase = .running)
      (hf : m.frames = .repeat body 0 :: rest) : Turn e limits m { m with frames := rest }
  | repeatAgain {body : List Node} {n : Nat} {rest : List Frame} (hp : m.phase = .running)
      (hf : m.frames = .repeat body (n + 1) :: rest) :
      Turn e limits m { m with frames := Frame.ofBody body ++ .repeat body n :: rest }
  | loop {c : Condition} {body : List Node} {line : Nat} {rest : List Frame}
      (hp : m.phase = .running) (hf : m.frames = .while c body line :: rest) :
      Turn e limits m
        { m with
          frames := rest, phase := .testing c line (Frame.ofBody body ++ [.while c body line]) [] }
  | cancelAtTest {c : Condition} {line : Nat} {yes no : List Frame}
      (hp : m.phase = .testing c line yes no) (hc : m.control.cancelled = true) :
      Turn e limits m (m.finish .cancelled)
  | overAtTest {c : Condition} {line : Nat} {yes no : List Frame}
      (hp : m.phase = .testing c line yes no) (hc : m.control.cancelled = false)
      (hb : limits.budget < m.steps + 1) :
      Turn e limits m
        ({ m with steps := m.steps + 1 }.fail line (.budgetExceeded limits.budget))
  | test {c : Condition} {line : Nat} {yes no : List Frame}
      (hp : m.phase = .testing c line yes no) (hc : m.control.cancelled = false)
      (hb : m.steps + 1 ≤ limits.budget) :
      Turn e limits m { m with steps := m.steps + 1, phase := .sensing c line yes no }
  | decided {c : Condition} {line : Nat} {yes no : List Frame} {value : Bool}
      (hp : m.phase = .sensing c line yes no)
      (ha : c.answer (c.first.holds m.world) = .known value) :
      Turn e limits m
        { m with frames := (if value then yes else no) ++ m.frames, phase := .running }
  | undecided {c rest : Condition} {line : Nat} {yes no : List Frame}
      (hp : m.phase = .sensing c line yes no)
      (ha : c.answer (c.first.holds m.world) = .pending rest) :
      Turn e limits m { m with phase := .testing rest line yes no }
  | refuse {p : Primitive} {line : Nat} {cause : Fault.Cause} (hp : m.phase = .acting p line)
      (ha : p.check m.world = .error cause) : Turn e limits m (m.fail line cause)
  | accept {p : Primitive} {line : Nat} (hp : m.phase = .acting p line)
      (ha : p.check m.world = .ok ()) :
      Turn e limits m { m with phase := .publishing p line (p.apply m.world) }
  | publish {p : Primitive} {line : Nat} {next : World} (hp : m.phase = .publishing p line next) :
      Turn e limits m
        { m with
          world := next, trace := ⟨p, line, next⟩ :: m.trace, phase := .gate .askCancelled false }

variable {e : Executable} {limits : Limits} {m n : Machine}

theorem turn_passGate {stage : Gate} {starting : Bool} (hp : m.phase = .gate stage starting)
    (hs : stage ≠ .asleep) : Turn e limits m (m.passGate e starting stage) := by
  cases stage with
  | askCancelled =>
    rw [passGate]
    split
    · next hc => exact .cancelAtGate hp hc
    · next hc => exact .ask hp (by simpa using hc)
  | askPaused =>
    rw [passGate]
    split
    · next hq => exact .lock hp hq
    · next hq => exact .pass hp (by simpa using hq)
  | locked =>
    rw [passGate]
    split
    · next hc => exact .cancelAtGate hp hc
    · next hc =>
      split
      · next hq =>
        split
        · next hn => exact .sleep hp (by simpa using hc) hq hn
        · next hn => exact .permit hp (by simpa using hc) hq hn
      · next hq => exact .pass hp (by simpa using hq)
  | asleep => exact absurd rfl hs

theorem turn_openCall {target line : Nat} (hp : m.phase = .calling target line) :
    Turn e limits m (m.openCall e limits target line) := by
  unfold openCall
  split
  · next hr => exact .stray hp hr
  · next r hr =>
    split
    · next hd => exact .tooDeep hp hr hd
    · next hd => exact .call hp hr (Nat.lt_of_not_le hd)

theorem turn_takeFrame (hp : m.phase = .running) : Turn e limits m (m.takeFrame limits) := by
  unfold takeFrame
  split
  case h_1 hf => exact .complete hp hf
  case h_2 hf => exact .leave hp hf
  case h_3 node nodes call rest hf =>
    unfold charge
    split
    · next hc => exact .cancelAtNode hp hf hc
    · next hc =>
      have hc : m.control.cancelled = false := by simpa using hc
      dsimp only
      split
      · next hb => exact .overAtNode hp hf hc hb
      · next hb => exact .node hp hf hc (Nat.le_of_not_lt hb)
  case h_4 hf => exact .repeatDone hp hf
  case h_5 hf => exact .repeatAgain hp hf
  case h_6 hf => exact .loop hp hf

theorem turn_sense {c : Condition} {line : Nat} {yes no : List Frame}
    (hp : m.phase = .sensing c line yes no) : Turn e limits m (m.sense c line yes no) := by
  unfold sense
  split
  · next ha => exact .decided hp ha
  · next ha => exact .decided hp ha
  · next ha => exact .undecided hp ha

theorem turn_attempt {p : Primitive} {line : Nat} (hp : m.phase = .acting p line) :
    Turn e limits m (m.attempt p line) := by
  unfold attempt
  split
  · next ha => exact .refuse hp ha
  · next ha => exact .accept hp ha

/-- Every step of a machine that does not rest is a turn. -/
theorem turn_step (h : m.isResting = false) : Turn e limits m (m.step e limits) := by
  cases hp : m.phase with
  | gate stage starting =>
    have hs : stage ≠ .asleep := by
      rintro rfl
      simp [isResting, hp] at h
    simp only [step, hp]
    exact turn_passGate hp hs
  | calling target line =>
    simp only [step, hp]
    exact turn_openCall hp
  | running =>
    simp only [step, hp]
    exact turn_takeFrame hp
  | testing c line yes no =>
    simp only [step, hp, charge]
    split
    · next hc => exact .cancelAtTest hp hc
    · next hc =>
      have hc : m.control.cancelled = false := by simpa using hc
      split
      · next hb => exact .overAtTest hp hc hb
      · next hb => exact .test hp hc (Nat.le_of_not_lt hb)
  | sensing c line yes no =>
    simp only [step, hp]
    exact turn_sense hp
  | acting p line =>
    simp only [step, hp]
    exact turn_attempt hp
  | publishing p line next =>
    simp only [step, hp]
    exact .publish hp
  | finished outcome => simp [isResting, hp] at h
  | lost target => simp [isResting, hp] at h

/-- A machine at rest stays as it is. -/
theorem step_of_isResting (h : m.isResting = true) : m.step e limits = m := by
  unfold isResting at h
  split at h
  · next hp => simp only [step, hp]
  · next hp => simp only [step, hp]
  · next hp => simp only [step, hp, passGate]
  · cases h

/-- What a turn keeps, a step keeps. -/
theorem step_keeps {P : Machine → Prop}
    (hP : Turn e limits m (m.step e limits) → P (m.step e limits)) (hm : P m) :
    P (m.step e limits) := by
  cases h : m.isResting with
  | true => rwa [step_of_isResting h]
  | false => exact hP (turn_step h)

end Machine
end Karel
