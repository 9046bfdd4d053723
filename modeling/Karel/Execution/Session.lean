import Karel.Execution.Run

/-! # Sessions

A session is a run together with those who interfere with it: hooks, which follow certain actions at
once, and a script of the controlling side. An entry of the script is due after a number of actions.
The controlling side makes it when the run rests; if the run does not come to rest because it loops
without acting, an entry that is due is made after `patience` further steps.
-/

namespace Karel

inductive Request where
  | signal (signal : Signal)
  | publish (world : World)
  deriving DecidableEq

/-- Requests that are due after a number of actions. -/
structure Appointment where
  actions : Nat
  requests : List Request

/-- The flags of a control at the time of a hook, with the number of actions performed. -/
structure HookNote where
  actions : Nat
  paused : Bool
  cancelled : Bool
  deriving DecidableEq

/-- What the controlling side sees before it makes an entry of its script. -/
structure ScriptNote extends HookNote where
  world : World
  deriving DecidableEq

namespace Machine

def request (m : Machine) : Request → Machine
  | .signal s => m.signal s
  | .publish w => m.publish w

def requests (m : Machine) (rs : List Request) : Machine := rs.foldl request m

def actions (m : Machine) : Nat := m.trace.length

def note (m : Machine) : HookNote := ⟨m.actions, m.control.paused, m.control.cancelled⟩

/-- Whether the next step completes an action. -/
def isPublishing (m : Machine) : Bool :=
  match m.phase with
  | .publishing _ _ _ => true
  | _ => false

/-- What a request leaves alone as long as nobody sleeps. -/
structure SameWork (m n : Machine) : Prop where
  asleep : m.isAsleep = false
  steps : n.steps = m.steps
  frames : n.frames = m.frames
  phase : n.phase = m.phase

theorem SameWork.refl {m : Machine} (h : m.isAsleep = false) : SameWork m m := ⟨h, rfl, rfl, rfl⟩

theorem SameWork.trans {m n k : Machine} (h : SameWork m n) (h' : SameWork n k) : SameWork m k :=
  ⟨h.asleep, h'.steps.trans h.steps, h'.frames.trans h.frames, h'.phase.trans h.phase⟩

theorem SameWork.isAsleep {m n : Machine} (h : SameWork m n) : n.isAsleep = false := by
  have := h.asleep
  unfold Machine.isAsleep at *
  rwa [h.phase]

theorem sameWork_request {m : Machine} (h : m.isAsleep = false) (r : Request) :
    SameWork m (m.request r) := by
  cases r with
  | publish w => exact ⟨h, rfl, rfl, rfl⟩
  | signal s =>
    change SameWork m (m.signal s)
    unfold signal
    split
    · next hp => simp [Machine.isAsleep, hp] at h
    · exact ⟨h, rfl, rfl, rfl⟩

theorem sameWork_requests {m : Machine} (h : m.isAsleep = false) (rs : List Request) :
    SameWork m (m.requests rs) := by
  induction rs generalizing m with
  | nil => exact .refl h
  | cons r rs ih =>
    have h1 := sameWork_request h r
    exact h1.trans (ih h1.isAsleep)

theorem isAsleep_step_of_isPublishing (e : Executable) (limits : Limits) {m : Machine}
    (h : m.isPublishing = true) : (m.step e limits).isAsleep = false := by
  unfold isPublishing at h
  split at h
  · next hp =>
    unfold step
    rw [hp]
    rfl
  · cases h

theorem Closer.of_sameWork {limits : Limits} {m n k : Machine} (h : Closer limits m k)
    (h' : SameWork m n) : Closer limits n k := by
  unfold Closer at *
  have hb : n.budgetLeft limits = m.budgetLeft limits := by simp [budgetLeft, h'.steps]
  have hw : n.work = m.work := by simp [work, h'.frames, h'.phase]
  rwa [hb, hw]

end Machine

/-- A run in the hands of its controllers: the machine, the rest of the script, and what was noted,
the latest first. -/
structure Session where
  machine : Machine
  script : List Appointment
  hookNotes : List HookNote := []
  scriptNotes : List ScriptNote := []

namespace Session

/-- Follows the hooks that are due after the action just performed. -/
def followHooks (s : Session) : List Appointment → Session
  | [] => s
  | hook :: hooks =>
    if hook.actions = s.machine.actions then
      let m := s.machine.requests hook.requests
      followHooks { s with machine := m, hookNotes := m.note :: s.hookNotes } hooks
    else followHooks s hooks

/-- One step of the machine, with the hooks that follow it. -/
def advance (e : Executable) (limits : Limits) (hooks : List Appointment) (s : Session) : Session :=
  let t := { s with machine := s.machine.step e limits }
  if s.machine.isPublishing then t.followHooks hooks else t

def make (s : Session) (entry : Appointment) (rest : List Appointment) : Session :=
  { s with
    machine := s.machine.requests entry.requests
    script := rest
    scriptNotes := ⟨s.machine.note, s.machine.world⟩ :: s.scriptNotes }

theorem followHooks_script (s : Session) (hooks : List Appointment) :
    (s.followHooks hooks).script = s.script := by
  fun_induction followHooks s hooks with
  | case1 => rfl
  | case2 _ _ _ _ _ ih => exact ih
  | case3 _ _ _ _ ih => exact ih

theorem followHooks_sameWork {s : Session} (h : s.machine.isAsleep = false)
    (hooks : List Appointment) : s.machine.SameWork (s.followHooks hooks).machine := by
  fun_induction followHooks s hooks with
  | case1 s => exact .refl h
  | case2 s hook hooks _ m ih =>
    have h1 := Machine.sameWork_requests h hook.requests
    exact h1.trans (ih h1.isAsleep)
  | case3 s hook hooks _ ih => exact ih h

theorem advance_script (e : Executable) (limits : Limits) (hooks : List Appointment)
    (s : Session) : (s.advance e limits hooks).script = s.script := by
  unfold advance
  split
  · exact followHooks_script _ _
  · rfl

/-- A step with its hooks brings the machine closer to rest. -/
theorem closer_advance (e : Executable) (limits : Limits) (hooks : List Appointment) (s : Session)
    (h : s.machine.isResting = false) :
    Machine.Closer limits (s.advance e limits hooks).machine s.machine := by
  have hstep := Machine.step_decreases e limits s.machine h
  unfold advance
  split
  · next hp =>
    refine hstep.of_sameWork ?_
    have ha := Machine.isAsleep_step_of_isPublishing e limits hp
    exact followHooks_sameWork (s := { s with machine := s.machine.step e limits }) ha hooks
  · exact hstep

/-- Goes on to the end; `waited` is for how many steps the next entry of the script has been due. -/
def proceed (e : Executable) (limits : Limits) (hooks : List Appointment) (patience : Nat)
    (waited : Nat) (s : Session) : Session :=
  match hs : s.script with
  | [] =>
    match h : s.machine.isResting with
    | true => s
    | false =>
      have := closer_advance e limits hooks s h
      proceed e limits hooks patience 0 (s.advance e limits hooks)
  | entry :: rest =>
    have shorter : rest.length < s.script.length := by simp [hs]
    match h : s.machine.isResting with
    | true => proceed e limits hooks patience 0 (s.make entry rest)
    | false =>
      have := closer_advance e limits hooks s h
      if s.machine.actions < entry.actions then
        proceed e limits hooks patience 0 (s.advance e limits hooks)
      else if waited < patience then
        proceed e limits hooks patience (waited + 1) (s.advance e limits hooks)
      else proceed e limits hooks patience 0 (s.make entry rest)
termination_by (s.script.length, s.machine.budgetLeft limits, s.machine.work)
decreasing_by
  · rw [advance_script]
    exact Prod.Lex.right _ this
  · exact Prod.Lex.left _ _ shorter
  · rw [advance_script]
    exact Prod.Lex.right _ this
  · rw [advance_script]
    exact Prod.Lex.right _ this
  · exact Prod.Lex.left _ _ shorter

/-- The session of a run that starts under a given control on a given world. -/
def run (e : Executable) (limits : Limits) (patience : Nat) (hooks script : List Appointment)
    (control : Control) (world : World) : Session :=
  proceed e limits hooks patience 0 { machine := { control, world }, script }

end Session

end Karel
