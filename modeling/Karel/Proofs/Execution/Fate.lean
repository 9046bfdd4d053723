import Karel.Proofs.Execution.Interpreter
import Karel.Proofs.Execution.Invariant

/-! # The fate of a machine

A machine in the middle of a run still owes what its phase and its frames ask for. Its fate is what
it has done together with the meaning of what it owes, so it is known before the run ends. The fate
does not depend on the control, and a step of the machine either keeps it or is the end of a run
that was cancelled. Everything about undisturbed and about controlled runs follows from that.
-/
namespace Karel

/-- What is to be done, given the steps that are left and the world. -/
abbrev Task := Nat → World → Effect

namespace Task

def skip : Task := fun _ w => .counted 0 w

def lost (target : Nat) : Task := fun _ w => ⟨.lost target, 0, [], w⟩

/-- One task and then another. -/
def seq (a b : Task) : Task := fun left w =>
  (a left w).andThen (b (left - (a left w).steps) (a left w).world)

/-- Counts one step. -/
def tick (limits : Limits) (line : Nat) : Task
  | 0, w => .failed 1 w line (.budgetExceeded limits.budget)
  | _ + 1, w => .counted 1 w

/-- Decides a condition and goes on with the one or the other task. -/
def test (limits : Limits) (c : Condition) (line : Nat) (yes no : Task) : Task := fun left w =>
  if left < c.queries w then .failed (left + 1) w line (.budgetExceeded limits.budget)
  else (Effect.counted (c.queries w) w).andThen
    ((if c.holds w then yes else no) (left - c.queries w) w)

/-- The same after the first query has been counted. -/
def sense (limits : Limits) (c : Condition) (line : Nat) (yes no : Task) : Task := fun left w =>
  match c.answer (c.first.holds w) with
  | .known true => yes left w
  | .known false => no left w
  | .pending rest => test limits rest line yes no left w

@[simp] theorem skip_seq (a : Task) : skip.seq a = a := by
  funext left w
  exact Effect.counted_zero_andThen w _

@[simp] theorem seq_skip (a : Task) : a.seq skip = a := by
  funext left w
  exact Effect.andThen_counted_zero _

theorem seq_assoc (a b c : Task) : (a.seq b).seq c = a.seq (b.seq c) := by
  funext left w
  simp only [seq]
  cases h : (a left w).ending with
  | done =>
    rw [Effect.andThen_assoc]
    simp only [Effect.andThen, h, Nat.sub_sub]
  | stopped outcome => simp only [Effect.andThen, h]
  | lost target => simp only [Effect.andThen, h]

theorem tick_seq_zero (limits : Limits) (line : Nat) (k : Task) (w : World) :
    (tick limits line).seq k 0 w = .failed 1 w line (.budgetExceeded limits.budget) := rfl

theorem tick_seq_succ (limits : Limits) (line : Nat) (k : Task) (left : Nat) (w : World) :
    (tick limits line).seq k (left + 1) w = (Effect.counted 1 w).andThen (k left w) := rfl

theorem test_seq (limits : Limits) (c : Condition) (line : Nat) (yes no k : Task) :
    (test limits c line yes no).seq k = test limits c line (yes.seq k) (no.seq k) := by
  funext left w
  simp only [seq, test]
  by_cases h : left < c.queries w
  · simp only [if_pos h, Effect.failed_andThen]
  · simp only [if_neg h, Effect.andThen_assoc]
    split <;> simp only [Effect.counted_andThen, seq, Nat.sub_sub]

end Task

/-- What an answer to the first query of a condition leaves of it. -/
def Verdict.Leaves (w : World) (c : Condition) : Verdict → Prop
  | .known value => c.holds w = value ∧ c.queries w = 1
  | .pending rest => c.holds w = rest.holds w ∧ c.queries w = rest.queries w + 1

theorem Condition.answer_leaves (c : Condition) (w : World) :
    (c.answer (c.first.holds w)).Leaves w c := by
  induction c with
  | query q p => exact ⟨rfl, rfl⟩
  | not c ih =>
    simp only [first, answer]
    cases h : c.answer (c.first.holds w) with
    | known value =>
      rw [h] at ih
      exact ⟨congrArg (!·) ih.1, ih.2⟩
    | pending rest =>
      rw [h] at ih
      exact ⟨congrArg (!·) ih.1, ih.2⟩
  | and l r ihl ihr =>
    simp only [first, answer]
    cases h : l.answer (l.first.holds w) with
    | known value =>
      rw [h] at ihl
      obtain ⟨hv, hq⟩ := ihl
      cases value <;> simp [Verdict.Leaves, holds, queries, hv, hq, Nat.add_comm]
    | pending rest =>
      rw [h] at ihl
      obtain ⟨hv, hq⟩ := ihl
      simp only [Verdict.Leaves, holds, queries, hv, hq, true_and]
      omega
  | or l r ihl ihr =>
    simp only [first, answer]
    cases h : l.answer (l.first.holds w) with
    | known value =>
      rw [h] at ihl
      obtain ⟨hv, hq⟩ := ihl
      cases value <;> simp [Verdict.Leaves, holds, queries, hv, hq, Nat.add_comm]
    | pending rest =>
      rw [h] at ihl
      obtain ⟨hv, hq⟩ := ihl
      simp only [Verdict.Leaves, holds, queries, hv, hq, true_and]
      omega

/-- Deciding a condition is counting a step, asking its first query and going on from there. -/
theorem Task.test_eq (limits : Limits) (c : Condition) (line : Nat) (yes no : Task) :
    test limits c line yes no = (tick limits line).seq (sense limits c line yes no) := by
  funext left w
  have hpos := c.queries_pos w
  have hl := c.answer_leaves w
  cases left with
  | zero => rw [tick_seq_zero, test, if_pos hpos]
  | succ left =>
    rw [tick_seq_succ]
    unfold sense
    cases h : c.answer (c.first.holds w) with
    | known value =>
      rw [h] at hl
      obtain ⟨hv, hq⟩ := hl
      cases value <;> simp [test, hv, hq]
    | pending rest =>
      rw [h] at hl
      obtain ⟨hv, hq⟩ := hl
      simp only [test, hv, hq, Nat.add_lt_add_iff_right, Nat.add_sub_add_right]
      split
      · simp [Effect.counted_andThen, Effect.failed, Nat.add_comm]
      · rw [Effect.counted_andThen_counted, Nat.add_comm]

namespace Executable
variable (e : Executable) (limits : Limits) (depth : Nat)

def callTask (target line : Nat) : Task :=
  match e.routines[target]? with
  | none => .lost target
  | some r =>
    if limits.depth ≤ depth then fun _ w => .failed 0 w line (.depthExceeded r.name limits.depth)
    else evalBlock e limits (depth + 1) r.body

def entryTask : Task :=
  match e.entryRoutine? with
  | none => .lost e.entry
  | some r => e.callTask limits depth e.entry r.line

/-- What a node does once it is counted. -/
def nodeTask : Node → Task
  | .action p line => fun _ w => perform p line w
  | .call target line => e.callTask limits depth target line
  | .repeat count body _ => evalRepeat e limits depth body count
  | .if c yes no line =>
    .test limits c line (evalBlock e limits depth yes) (evalBlock e limits depth no)
  | .while c body line => evalWhile e limits depth c body line

theorem callTask_apply (target line left : Nat) (w : World) :
    e.callTask limits depth target line left w =
      e.callWith limits depth target line w fun body =>
        evalBlock e limits (depth + 1) body left w := by
  unfold callTask callWith
  cases e.routines[target]? with
  | none => rfl
  | some r =>
    dsimp only
    split <;> rfl

@[simp] theorem evalBlock_nil : evalBlock e limits depth [] = Task.skip := by
  funext left w
  rw [evalBlock]
  rfl

theorem evalBlock_cons (node : Node) (nodes : List Node) :
    evalBlock e limits depth (node :: nodes) =
      Task.seq (evalNode e limits depth node) (evalBlock e limits depth nodes) := by
  funext left w
  rw [evalBlock]
  rfl

theorem evalRepeat_zero (body : List Node) : evalRepeat e limits depth body 0 = Task.skip := by
  funext left w
  rw [evalRepeat]
  rfl

theorem evalRepeat_succ (body : List Node) (count : Nat) :
    evalRepeat e limits depth body (count + 1) =
      Task.seq (evalBlock e limits depth body) (evalRepeat e limits depth body count) := by
  funext left w
  rw [evalRepeat]
  rfl

theorem evalWhile_eq (c : Condition) (body : List Node) (line : Nat) :
    evalWhile e limits depth c body line =
      Task.test limits c line
        (Task.seq (evalBlock e limits depth body) (evalWhile e limits depth c body line))
        Task.skip := by
  funext left w
  rw [evalWhile]
  simp only [Task.test]
  split
  · rfl
  · split <;> rfl

theorem evalNode_eq (node : Node) :
    evalNode e limits depth node =
      (Task.tick limits node.line).seq (e.nodeTask limits depth node) := by
  funext left w
  cases left with
  | zero =>
    rw [evalNode]
    rfl
  | succ left =>
    rw [Task.tick_seq_succ]
    cases node with
    | action p line =>
      rw [evalNode]
      rfl
    | call target line => rw [evalNode, nodeTask, callTask_apply]
    | «repeat» count body line =>
      rw [evalNode]
      rfl
    | «if» c yes no line =>
      rw [evalNode]
      simp only [nodeTask, Task.test]
      split
      · rfl
      · split <;> rfl
    | «while» c body line =>
      rw [evalNode]
      rfl

end Executable

namespace Frame
variable (e : Executable) (limits : Limits)

def task (depth : Nat) : Frame → Task
  | .block nodes _ => e.evalBlock limits depth nodes
  | .repeat body left => e.evalRepeat limits depth body left
  | .while c body line => e.evalWhile limits depth c body line

/-- The open calls once a frame is done. -/
def depthAfter (depth : Nat) : Frame → Nat
  | .block _ call => if call then depth - 1 else depth
  | .repeat _ _ | .while _ _ _ => depth

/-- What a stack of frames owes. -/
def tasks (depth : Nat) : List Frame → Task
  | [] => .skip
  | f :: fs => (f.task e limits depth).seq (tasks (f.depthAfter depth) fs)

theorem tasks_cons (depth : Nat) (f : Frame) (fs : List Frame) :
    tasks e limits depth (f :: fs) =
      (f.task e limits depth).seq (tasks e limits (f.depthAfter depth) fs) := rfl

/-- An empty block has no frame and owes nothing. -/
theorem tasks_ofBody_append (depth : Nat) (body : List Node) (fs : List Frame) :
    tasks e limits depth (ofBody body ++ fs) =
      Task.seq (e.evalBlock limits depth body) (tasks e limits depth fs) := by
  cases body with
  | nil => simp [ofBody]
  | cons node nodes => rfl

end Frame

/-- What a phase owes, the frames included. -/
def Phase.task (e : Executable) (limits : Limits) (depth : Nat) (frames : List Frame) : Phase → Task
  | .gate _ starting =>
    if starting then (e.entryTask limits depth).seq (Frame.tasks e limits depth frames)
    else Frame.tasks e limits depth frames
  | .calling target line =>
    (e.callTask limits depth target line).seq (Frame.tasks e limits depth frames)
  | .running => Frame.tasks e limits depth frames
  | .testing c line yes no =>
    .test limits c line (Frame.tasks e limits depth (yes ++ frames))
      (Frame.tasks e limits depth (no ++ frames))
  | .sensing c line yes no =>
    .sense limits c line (Frame.tasks e limits depth (yes ++ frames))
      (Frame.tasks e limits depth (no ++ frames))
  | .acting p line =>
    Task.seq (fun _ w => Executable.perform p line w) (Frame.tasks e limits depth frames)
  | .publishing p line next =>
    Task.seq (fun _ _ => .performed p line next) (Frame.tasks e limits depth frames)
  | .finished .completed => .skip
  | .finished outcome => fun _ w => ⟨.stopped outcome, 0, [], w⟩
  | .lost target => .lost target

namespace Machine
variable (e : Executable) (limits : Limits)

/-- What a machine has done so far. -/
def past (m : Machine) : Effect := ⟨.done, m.steps, m.trace.reverse, m.world⟩

/-- What it will have done once a task is done too. -/
def owing (m : Machine) (t : Task) : Effect :=
  m.past.andThen (t (limits.budget - m.steps) m.world)

/-- What becomes of a machine that nobody disturbs any more. -/
def fate (m : Machine) : Effect := m.owing limits (m.phase.task e limits m.depth m.frames)

variable {e limits}

theorem fate_of_phase {m : Machine} {p : Phase} (hp : m.phase = p) :
    m.fate e limits = m.owing limits (p.task e limits m.depth m.frames) := by
  rw [fate, hp]

theorem fate_fail (m : Machine) (line : Nat) (cause : Fault.Cause) :
    (m.fail line cause).fate e limits = m.owing limits fun _ w => .failed 0 w line cause := rfl

theorem fate_pass (m : Machine) (stage : Gate) (starting : Bool) :
    (m.pass e starting).fate e limits =
      m.owing limits (Phase.task e limits m.depth m.frames (.gate stage starting)) := by
  cases starting with
  | false => rfl
  | true =>
    simp only [pass, Phase.task, Executable.entryTask, if_true]
    cases e.entryRoutine? with
    | none => rfl
    | some r => rfl

theorem fate_passGate {m : Machine} {starting : Bool} {stage : Gate}
    (hp : m.phase = .gate stage starting) :
    (m.passGate e starting stage).phase = .finished .cancelled ∨
      (m.passGate e starting stage).fate e limits = m.fate e limits := by
  rw [fate_of_phase hp]
  cases stage with
  | askCancelled =>
    rw [passGate]
    split
    · exact .inl rfl
    · exact .inr rfl
  | askPaused =>
    rw [passGate]
    split
    · exact .inr rfl
    · exact .inr (m.fate_pass _ starting)
  | locked =>
    rw [passGate]
    split
    · exact .inl rfl
    · split
      · split
        · exact .inr rfl
        · exact .inr (fate_pass _ .locked starting)
      · exact .inr (m.fate_pass _ starting)
  | asleep => exact .inr (fate_of_phase hp)

theorem fate_openCall (m : Machine) (target line : Nat) :
    (m.openCall e limits target line).fate e limits =
      m.owing limits ((e.callTask limits m.depth target line).seq
        (Frame.tasks e limits m.depth m.frames)) := by
  unfold openCall Executable.callTask
  cases e.routines[target]? with
  | none => rfl
  | some r =>
    dsimp only
    split
    · rfl
    · rfl

/-- A step that counts: the run is cancelled, or it goes on as if the step had been a task. -/
theorem fate_charge {m : Machine} {line : Nat} {next : Machine → Machine} {t : Task}
    (hb : m.steps ≤ limits.budget)
    (hn : (next { m with steps := m.steps + 1 }).fate e limits =
      owing limits { m with steps := m.steps + 1 } t) :
    (charge limits m line next).phase = .finished .cancelled ∨
      (charge limits m line next).fate e limits =
        m.owing limits ((Task.tick limits line).seq t) := by
  unfold charge
  split
  · exact .inl rfl
  · right
    dsimp only
    by_cases h : limits.budget < m.steps + 1
    · have hz : limits.budget - m.steps = 0 := by omega
      rw [if_pos h, fate_fail, owing, owing, hz]
      rfl
    · have hs : limits.budget - m.steps = limits.budget - (m.steps + 1) + 1 := by omega
      rw [if_neg h, hn, owing, owing, hs, Task.tick_seq_succ, ← Effect.andThen_assoc]
      simp [past, Effect.andThen, Effect.counted]

theorem fate_execute {m : Machine} (hp : m.phase = .running) (node : Node) :
    (execute node m).fate e limits =
      m.owing limits ((e.nodeTask limits m.depth node).seq
        (Frame.tasks e limits m.depth m.frames)) := by
  cases node with
  | action p line => rfl
  | call target line => rfl
  | «repeat» count body line =>
    simp only [execute, fate, hp]
    rfl
  | «if» c yes no line =>
    simp only [execute, fate, Phase.task, Executable.nodeTask, Task.test_seq,
      Frame.tasks_ofBody_append]
    rfl
  | «while» c body line =>
    simp only [execute, fate, hp]
    rfl

/-- Taking a frame up keeps the fate, whatever the frame is. -/
theorem fate_takeFrame {m : Machine} (hp : m.phase = .running) (hb : m.steps ≤ limits.budget) :
    (m.takeFrame limits).phase = .finished .cancelled ∨
      (m.takeFrame limits).fate e limits =
        m.owing limits (Frame.tasks e limits m.depth m.frames) := by
  unfold takeFrame
  split
  case h_1 hf =>
    right
    rw [hf]
    rfl
  case h_2 call rest hf =>
    right
    rw [hf, Frame.tasks_cons, Frame.task, Executable.evalBlock_nil, Task.skip_seq]
    simp only [fate, hp]
    rfl
  case h_3 node nodes call rest hf =>
    rw [hf, Frame.tasks_cons, Frame.task, Executable.evalBlock_cons, Executable.evalNode_eq,
      Task.seq_assoc, Task.seq_assoc]
    refine fate_charge hb ?_
    apply fate_execute
    exact hp
  case h_4 body rest hf =>
    right
    rw [hf, Frame.tasks_cons, Frame.task, Executable.evalRepeat_zero, Task.skip_seq]
    simp only [fate, hp]
    rfl
  case h_5 body n rest hf =>
    right
    rw [hf, Frame.tasks_cons, Frame.task, Executable.evalRepeat_succ, Task.seq_assoc]
    simp only [fate, hp, Phase.task, Frame.tasks_ofBody_append]
    rfl
  case h_6 c body line rest hf =>
    right
    rw [hf, Frame.tasks_cons, Frame.task, Executable.evalWhile_eq, Task.test_seq, Task.seq_assoc,
      Task.skip_seq]
    simp only [fate, Phase.task, List.append_assoc, Frame.tasks_ofBody_append]
    rfl

theorem fate_sense (m : Machine) (c : Condition) (line : Nat) (yes no : List Frame) :
    (m.sense c line yes no).fate e limits =
      m.owing limits (.sense limits c line (Frame.tasks e limits m.depth (yes ++ m.frames))
        (Frame.tasks e limits m.depth (no ++ m.frames))) := by
  unfold sense owing Task.sense
  cases c.answer (c.first.holds m.world) with
  | known value => cases value <;> rfl
  | pending rest => rfl

theorem fate_attempt (m : Machine) (p : Primitive) (line : Nat) :
    (m.attempt p line).fate e limits =
      m.owing limits (Task.seq (fun _ w => Executable.perform p line w)
        (Frame.tasks e limits m.depth m.frames)) := by
  cases h : p.check m.world with
  | error cause =>
    simp only [attempt, h, owing, Task.seq, Executable.perform]
    rfl
  | ok u =>
    simp only [attempt, h, owing, Task.seq, Executable.perform]
    rfl

theorem fate_publishing {m : Machine} {p : Primitive} {line : Nat} {next : World}
    (hp : m.phase = .publishing p line next) :
    (m.step e limits).fate e limits = m.fate e limits := by
  simp only [step, fate, hp, Phase.task, owing, Task.seq, ← Effect.andThen_assoc]
  simp [past, Effect.andThen, Effect.performed]

/-- A step keeps the fate of a machine, unless it is the end of a cancelled run. -/
theorem fate_step {m : Machine} (hb : m.InBudget limits) :
    (m.step e limits).phase = .finished .cancelled ∨
      (m.step e limits).fate e limits = m.fate e limits := by
  cases hp : m.phase with
  | gate stage starting =>
    simp only [step, hp]
    exact fate_passGate hp
  | calling target line =>
    right
    simp only [step, hp]
    rw [fate_openCall, fate_of_phase hp]
    rfl
  | running =>
    have hs := hb (by simp [isOver, hp])
    simp only [step, hp]
    rw [fate_of_phase hp]
    exact fate_takeFrame hp hs
  | testing c line yes no =>
    have hs := hb (by simp [isOver, hp])
    simp only [step, hp]
    rw [fate_of_phase hp, Phase.task, Task.test_eq]
    exact fate_charge hs rfl
  | sensing c line yes no =>
    right
    simp only [step, hp]
    rw [fate_sense, fate_of_phase hp]
    rfl
  | acting p line =>
    right
    simp only [step, hp]
    rw [fate_attempt, fate_of_phase hp]
    rfl
  | publishing p line next => exact .inr (fate_publishing hp)
  | finished outcome =>
    right
    simp only [step, hp]
  | lost target =>
    right
    simp only [step, hp]

/-- What a machine has done is the beginning of its fate. -/
theorem trace_prefix_fate (m : Machine) : m.trace.reverse <+: (m.fate e limits).trace :=
  Effect.trace_prefix_andThen m.past _

/-- When the run is over, its fate is what it has done. -/
theorem trace_fate_of_isOver {m : Machine} (h : m.isOver = true) :
    (m.fate e limits).trace = m.trace.reverse := by
  unfold isOver at h
  split at h
  · next outcome hp =>
    rw [fate_of_phase hp]
    cases outcome <;> exact List.append_nil _
  · next target hp =>
    rw [fate_of_phase hp]
    exact List.append_nil _
  · cases h

theorem report?_fate_of_isOver {m : Machine} (h : m.isOver = true) :
    (m.fate e limits).report? = m.report? := by
  unfold isOver at h
  split at h
  · next outcome hp =>
    rw [fate_of_phase hp]
    unfold report? outcome?
    rw [hp]
    cases outcome <;>
      simp [owing, past, Effect.andThen, Phase.task, Task.skip, Effect.counted, Effect.report?]
  · next target hp =>
    rw [fate_of_phase hp]
    unfold report? outcome?
    rw [hp]
    rfl
  · cases h

end Machine

end Karel
