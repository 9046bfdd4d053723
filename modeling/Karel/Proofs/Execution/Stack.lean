import Karel.Proofs.Execution.Halting

/-! # The stack of a run

The frames of a run are a path into its program. At the bottom stands the body of the entry, and
every other frame stands on a block that has just passed the node the frame comes from: a call, a
branch, a `repeat` or a `while`; the body of a loop stands on the frame of its loop. The open calls
are the blocks on this path that are bodies of commands.

That a run keeps to such a path, whatever the outside does to its control and to the world, is what
keeps it from going wrong: it never returns from a call that is not open, never repeats more often
than its node says, and never calls a routine that is not there.
-/
namespace Karel

/-- Whether the end of a frame is the end of a call. -/
def Frame.isCall : Frame → Bool
  | .block _ call => call
  | .repeat _ _ | .while _ _ _ => false

namespace Executable

/-- The stacks of an executable with so many open calls. -/
inductive Stack (e : Executable) : Nat → List Frame → Prop where
  | empty : Stack e 0 []
  | entry {r : Routine} (hr : e.entryRoutine? = some r) : Stack e 1 [.block r.body true]
  /-- The next node of a block has been taken up. -/
  | past {depth : Nat} {node : Node} {nodes : List Node} {call : Bool} {rest : List Frame}
      (h : Stack e depth (.block (node :: nodes) call :: rest)) :
      Stack e depth (.block nodes call :: rest)
  | call {depth target line : Nat} {r : Routine} {nodes : List Node} {call : Bool}
      {rest : List Frame} (h : Stack e depth (.block (.call target line :: nodes) call :: rest))
      (hr : e.routines[target]? = some r) :
      Stack e (depth + 1) (.block r.body true :: .block nodes call :: rest)
  | yes {depth line : Nat} {c : Condition} {yes no nodes : List Node} {call : Bool}
      {rest : List Frame} (h : Stack e depth (.block (.if c yes no line :: nodes) call :: rest)) :
      Stack e depth (.block yes false :: .block nodes call :: rest)
  | no {depth line : Nat} {c : Condition} {yes no nodes : List Node} {call : Bool}
      {rest : List Frame} (h : Stack e depth (.block (.if c yes no line :: nodes) call :: rest)) :
      Stack e depth (.block no false :: .block nodes call :: rest)
  | repeat {depth count line left : Nat} {body nodes : List Node} {call : Bool} {rest : List Frame}
      (h : Stack e depth (.block (.repeat count body line :: nodes) call :: rest))
      (hl : left ≤ count) : Stack e depth (.repeat body left :: .block nodes call :: rest)
  | again {depth left : Nat} {body : List Node} {rest : List Frame}
      (h : Stack e depth (.repeat body left :: rest)) :
      Stack e depth (.block body false :: .repeat body left :: rest)
  | while {depth line : Nat} {c : Condition} {body nodes : List Node} {call : Bool}
      {rest : List Frame} (h : Stack e depth (.block (.while c body line :: nodes) call :: rest)) :
      Stack e depth (.while c body line :: .block nodes call :: rest)
  | loop {depth line : Nat} {c : Condition} {body : List Node} {rest : List Frame}
      (h : Stack e depth (.while c body line :: rest)) :
      Stack e depth (.block body false :: .while c body line :: rest)

variable {e : Executable} {depth : Nat} {frames : List Frame}

theorem Stack.depth_eq (h : e.Stack depth frames) : depth = frames.countP Frame.isCall := by
  induction h with
  | empty | entry hr => rfl
  | past h ih => exact ih
  | call h hr ih =>
    rw [ih]
    exact (List.countP_cons_of_pos rfl).symm
  | yes h ih | no h ih | «repeat» h hl ih | again h ih | «while» h ih | loop h ih => exact ih

/-- Below a frame is a stack again, with the calls that are open once the frame is done. -/
theorem Stack.pop {f : Frame} {fs : List Frame} (h : e.Stack depth (f :: fs)) :
    e.Stack (f.depthAfter depth) fs := by
  generalize hfs : f :: fs = frames at h
  induction h generalizing f fs with
  | empty => cases hfs
  | entry hr =>
    cases hfs
    exact .empty
  | past h ih =>
    cases hfs
    -- The frame below is the same whether the block has passed its node or not.
    have hpop := ih rfl
    exact hpop
  | call h | yes h | no h | «repeat» h | «while» h =>
    cases hfs
    exact .past h
  | again h | loop h =>
    cases hfs
    exact h

theorem Stack.drop {above : List Frame} (h : e.Stack depth (above ++ frames)) :
    ∃ depth', e.Stack depth' frames := by
  induction above generalizing depth with
  | nil => exact ⟨depth, h⟩
  | cons f above ih => exact ih h.pop

theorem Stack.ofBody {body : List Node} (h : e.Stack depth (.block body false :: frames)) :
    e.Stack depth (Frame.ofBody body ++ frames) := by
  cases body with
  | nil =>
    -- An empty block gets no frame.
    exact h.pop
  | cons node nodes => exact h

/-- A `repeat` stands on the block that has just passed its node. -/
theorem Stack.repeat_inv {body : List Node} {left : Nat}
    (h : e.Stack depth (.repeat body left :: frames)) :
    ∃ count line nodes call rest, frames = .block nodes call :: rest ∧
      e.Stack depth (.block (.repeat count body line :: nodes) call :: rest) ∧ left ≤ count := by
  cases h with
  | «repeat» h hl => exact ⟨_, _, _, _, _, rfl, h, hl⟩

theorem Stack.repeat_pred {body : List Node} {left : Nat}
    (h : e.Stack depth (.repeat body (left + 1) :: frames)) :
    e.Stack depth (.repeat body left :: frames) := by
  obtain ⟨count, line, nodes, call, rest, rfl, hs, hl⟩ := h.repeat_inv
  exact .repeat hs (Nat.le_of_succ_le hl)

end Executable

/-- What a phase is about to push makes a stack, too. -/
def Phase.Stacked (e : Executable) (depth : Nat) (frames : List Frame) : Phase → Prop
  | .gate _ starting => starting = true → frames = []
  | .calling target _ =>
    ∀ r, e.routines[target]? = some r → e.Stack (depth + 1) (.block r.body true :: frames)
  | .testing _ _ yes no => e.Stack depth (yes ++ frames) ∧ e.Stack depth (no ++ frames)
  | .sensing _ _ yes no => e.Stack depth (yes ++ frames) ∧ e.Stack depth (no ++ frames)
  | _ => True

namespace Machine
variable {e : Executable} {limits : Limits} {m n : Machine}

/-- The frames of a machine are a stack, and no more calls are open than may be. -/
structure Stacked (e : Executable) (limits : Limits) (m : Machine) : Prop where
  frames : e.Stack m.depth m.frames
  phase : m.phase.Stacked e m.depth m.frames
  bounded : m.depth ≤ limits.depth

theorem pass_depth (m : Machine) (starting : Bool) : (m.pass e starting).depth = m.depth := by
  unfold pass
  repeat' split
  all_goals rfl

theorem stacked_pass (m : Machine) {starting : Bool} (hf : e.Stack m.depth m.frames)
    (hs : starting = true → m.frames = []) (hb : m.depth ≤ limits.depth) :
    (m.pass e starting).Stacked e limits := by
  refine ⟨by rwa [pass_depth, pass_frames], ?_, by rwa [pass_depth]⟩
  cases starting with
  | false => trivial
  | true =>
    have hnil : m.frames = [] := hs rfl
    have hdepth : m.depth = 0 := by
      rw [hf.depth_eq, hnil]
      rfl
    rw [pass_depth, pass_frames, hdepth, hnil]
    simp only [pass, if_true]
    cases e.entryRoutine? with
    | none => trivial
    | some r =>
      intro r' hr'
      exact .entry hr'

theorem stacked_execute {node : Node} {nodes : List Node} {call : Bool} {rest : List Frame}
    (hp : m.phase = .running) (hf : m.frames = .block nodes call :: rest)
    (hs : e.Stack m.depth (.block (node :: nodes) call :: rest)) (hb : m.depth ≤ limits.depth) :
    (execute node m).Stacked e limits := by
  have hpast : e.Stack m.depth m.frames := by
    rw [hf]
    exact .past hs
  cases node with
  | action p line => exact ⟨hpast, trivial, hb⟩
  | call target line =>
    refine ⟨hpast, fun r hr => ?_, hb⟩
    simp only [execute, hf]
    exact .call hs hr
  | «repeat» count body line =>
    refine ⟨?_, ?_, hb⟩
    · simp only [execute, hf]
      exact .repeat hs (Nat.le_refl count)
    · simp only [execute, hp, Phase.Stacked]
  | «if» c yes no line =>
    refine ⟨hpast, ?_, hb⟩
    simp only [execute, hf, Phase.Stacked]
    exact ⟨Executable.Stack.ofBody (.yes hs), Executable.Stack.ofBody (.no hs)⟩
  | «while» c body line =>
    refine ⟨?_, ?_, hb⟩
    · simp only [execute, hf]
      exact .while hs
    · simp only [execute, hp, Phase.Stacked]

/-- A step leads from stack to stack. -/
theorem Turn.stacked (hm : m.Stacked e limits) (h : Turn e limits m n) : n.Stacked e limits := by
  obtain ⟨hs, hph, hb⟩ := hm
  cases h with
  | cancelAtGate | tooDeep | stray | complete | cancelAtTest | overAtTest | refuse | accept =>
    exact ⟨hs, trivial, hb⟩
  | ask hp | lock hp | sleep hp =>
    rw [hp] at hph
    exact ⟨hs, hph, hb⟩
  | permit hp | pass hp =>
    rw [hp] at hph
    exact stacked_pass _ hs hph hb
  | call hp hr hd =>
    rw [hp] at hph
    exact ⟨hph _ hr, trivial, hd⟩
  | @leave call rest hp hf =>
    rw [hf] at hs
    refine ⟨hs.pop, by simp only [hp, Phase.Stacked], ?_⟩
    dsimp only
    split <;> omega
  | cancelAtNode hp hf | overAtNode hp hf =>
    rw [hf] at hs
    exact ⟨.past hs, trivial, hb⟩
  | node hp hf =>
    rw [hf] at hs
    exact stacked_execute hp rfl hs hb
  | repeatDone hp hf =>
    rw [hf] at hs
    exact ⟨hs.pop, by simp only [hp, Phase.Stacked], hb⟩
  | repeatAgain hp hf =>
    rw [hf] at hs
    exact ⟨Executable.Stack.ofBody (.again hs.repeat_pred), by simp only [hp, Phase.Stacked], hb⟩
  | @loop c body line rest hp hf =>
    rw [hf] at hs
    refine ⟨hs.pop, ⟨?_, hs.pop⟩, hb⟩
    rw [List.append_assoc]
    exact Executable.Stack.ofBody (.loop hs)
  | test hp | undecided hp =>
    rw [hp] at hph
    exact ⟨hs, hph, hb⟩
  | @decided c line yes no value hp =>
    rw [hp] at hph
    refine ⟨?_, trivial, hb⟩
    cases value with
    | false => exact hph.2
    | true => exact hph.1
  | publish hp => exact ⟨hs, nofun, hb⟩

theorem Nudge.stacked (hm : m.Stacked e limits) (h : Nudge m n) : n.Stacked e limits := by
  cases h with
  | flags c => exact ⟨hm.frames, hm.phase, hm.bounded⟩
  | wake c hp =>
    have hph := hm.phase
    rw [hp] at hph
    exact ⟨hm.frames, hph, hm.bounded⟩

theorem stacked_start (e : Executable) (limits : Limits) (w : World) :
    (start w).Stacked e limits :=
  ⟨.empty, fun _ => rfl, Nat.zero_le _⟩

end Machine

/-! ## Worlds from outside -/

/-- What happens to a run that is not the only one to publish worlds. -/
inductive Incident where
  | move (move : Move)
  | publish (world : World)

namespace Machine
variable {e : Executable} {limits : Limits} {m n : Machine}

def meet (e : Executable) (limits : Limits) (m : Machine) : Incident → Machine
  | .move a => m.move e limits a
  | .publish w => m.publish w

/-- The machine after some incidents. -/
def after (e : Executable) (limits : Limits) (m : Machine) (incidents : List Incident) : Machine :=
  incidents.foldl (meet e limits) m

/-- A property that turns and nudges keep and that does not depend on the world holds after any
incidents. -/
theorem after_keeps {P : Machine → Prop} (ht : ∀ k n, P k → Turn e limits k n → P n)
    (hn : ∀ k n, P k → Nudge k n → P n) (hw : ∀ k w, P k → P (k.publish w))
    (incidents : List Incident) (hm : P m) : P (m.after e limits incidents) := by
  induction incidents generalizing m with
  | nil => exact hm
  | cons a incidents ih =>
    apply ih
    cases a with
    | move a => exact moves_keeps_of_turn (fun k hk => ht k _ hk) hn [a] hm
    | publish w => exact hw m w hm

/-- Nothing is amiss in a run. The open calls are the blocks on the stack that are bodies of
commands, and there are no more of them than allowed. Hence a call that ends is open, and none is
once the stack is empty. A `repeat` has no more turns left than the node says that the block below
it has just passed. The entry and every call that may still come lead to a routine that is there.
The counter of steps is at most one beyond the budget. The cells that an action or a query looks at,
the robot's own and the one ahead, pass the check of their coordinates: that is so by the type
`Cell` in any world, those from outside among them, and the run has no part in it. -/
structure Safe (e : Executable) (limits : Limits) (m : Machine) : Prop where
  openCalls : m.depth = m.frames.countP Frame.isCall
  bounded : m.depth ≤ limits.depth
  returns : ∀ nodes rest, m.frames = .block nodes true :: rest → 0 < m.depth
  empty : m.frames = [] → m.depth = 0
  repeats : ∀ above body left below, m.frames = above ++ .repeat body left :: below →
    ∃ depth count line nodes call rest, below = .block nodes call :: rest ∧
      e.Stack depth (.block (.repeat count body line :: nodes) call :: rest) ∧ left ≤ count
  entry : e.entry < e.routines.length
  routines : ∀ r ∈ e.routines, ∀ node ∈ r.body, node.Linked e.routines.length
  calls : ∀ f ∈ m.frames, f.Linked e.routines.length
  next : m.phase.Linked e.routines.length
  counter : m.steps ≤ limits.budget + 1
  here : Cell.ofCoords m.world.cell.x m.world.cell.y = .ok m.world.cell
  ahead : ∀ c, m.world.cell.neighbour? m.world.direction = some c → Cell.ofCoords c.x c.y = .ok c

theorem Nudge.metered (hm : m.Metered limits) (h : Nudge m n) : n.Metered limits := by
  refine ⟨h.inBudget hm.1, ?_⟩
  cases h with
  | flags c => exact hm.2
  | wake c hp => exact hm.2

theorem Stacked.safe (hm : m.Stacked e limits) (he : e.Linked) (hl : m.Linked e)
    (hs : m.Metered limits) : m.Safe e limits where
  openCalls := hm.frames.depth_eq
  bounded := hm.bounded
  returns nodes rest hf := by
    rw [hm.frames.depth_eq, hf, List.countP_cons_of_pos rfl]
    exact Nat.succ_pos _
  empty hf := by
    rw [hm.frames.depth_eq, hf]
    rfl
  repeats above body left below hf := by
    have hstack := hm.frames
    rw [hf] at hstack
    obtain ⟨depth, hstack⟩ := hstack.drop
    exact ⟨depth, hstack.repeat_inv⟩
  entry := he.entry
  routines := he.bodies
  calls := hl.frames
  next := hl.phase
  here := Cell.ofCoords_eq_ok_iff.2 ⟨rfl, rfl⟩
  ahead _ _ := Cell.ofCoords_eq_ok_iff.2 ⟨rfl, rfl⟩
  counter := hs.2

end Machine

/-- Nothing is ever amiss in a run of a compiled program, under any limits, whatever signals it gets
and whatever worlds are published while it runs. -/
theorem Executable.disturbed_run_safe {p : Program} {requested : Option String} {e : Executable}
    (h : p.compile requested = .ok e) (limits : Limits) (w : World) (incidents : List Incident) :
    ((Machine.start w).after e limits incidents).Safe e limits := by
  have he := Program.linked_of_compile h
  have hstacked : ((Machine.start w).after e limits incidents).Stacked e limits :=
    Machine.after_keeps (fun _ _ hk ht => ht.stacked hk) (fun _ _ hk hn => hn.stacked hk)
      (fun _ _ hk => ⟨hk.frames, hk.phase, hk.bounded⟩) incidents
      (Machine.stacked_start e limits w)
  have hlinked : ((Machine.start w).after e limits incidents).Linked e :=
    Machine.after_keeps (fun _ _ hk ht => ht.linked he hk) (fun _ _ hk hn => hn.linked hk)
      (fun _ _ hk => ⟨hk.frames, hk.phase⟩) incidents (Machine.linked_start e w)
  have hmetered : ((Machine.start w).after e limits incidents).Metered limits :=
    Machine.after_keeps (fun _ _ hk ht => ht.metered hk) (fun _ _ hk hn => hn.metered hk)
      (fun _ _ hk => hk) incidents (Machine.metered_start limits w)
  exact hstacked.safe he hlinked hmetered

/-- A run that is paused and resumed, into which another world is published, and which is then in
the second of its calls, inside the first turn of its `repeat`. -/
def Incident.interrupted : List Incident :=
  [.move (.signal .pause), .move .step, .move .step, .publish World.empty.fill, .move .step,
    .move (.signal .resume), .move .step, .move .step, .move .step, .move .step,
    .publish World.empty, .move .step, .move .step]

theorem Executable.patrol_disturbed_run_safe :
    Program.patrol.compile none = .ok patrol ∧
      ((Machine.start .empty).after patrol {} Incident.interrupted).depth = 2 ∧
      ((Machine.start .empty).after patrol {} Incident.interrupted).frames.length = 4 ∧
      ((Machine.start .empty).after patrol {} Incident.interrupted).Safe patrol {} := by
  have h : Program.patrol.compile none = .ok patrol := rfl
  exact ⟨h, rfl, rfl, disturbed_run_safe h {} .empty Incident.interrupted⟩

end Karel
