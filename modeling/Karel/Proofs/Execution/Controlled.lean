import Karel.Proofs.Execution.Undisturbed

/-! # Controlled runs

Between any two steps of the machine the outside may send a signal, and a sleeper may wake up
without being woken. A schedule is a list of such moves in any order; every prefix of a schedule is
a schedule, so that what holds after every schedule holds at every moment of every run.

What comes from outside changes the control and may wake a sleeper, and leaves the fate alone.
Hence pausing does not show in what a run does, and a cancelled run is the beginning of the
undisturbed one.
-/
namespace Karel

/-- What happens next to a run under control. -/
inductive Move where
  /-- The machine takes a step. -/
  | step
  /-- A sleeping machine wakes up by itself. -/
  | stir
  /-- The controlling side, or an observer, sends a signal. -/
  | signal (signal : Signal)
  deriving DecidableEq

namespace Machine

/-- A sleeper that wakes up asks for the flags again. -/
def stir (m : Machine) : Machine :=
  match m.phase with
  | .gate .asleep starting => { m with phase := .gate .locked starting }
  | _ => m

def move (e : Executable) (limits : Limits) (m : Machine) : Move → Machine
  | .step => m.step e limits
  | .stir => m.stir
  | .signal s => m.signal s

/-- The machine after a schedule. -/
def moves (e : Executable) (limits : Limits) (m : Machine) (ms : List Move) : Machine :=
  ms.foldl (move e limits) m

/-- What comes from outside: other flags, and perhaps an end of sleep. -/
inductive Nudge (m : Machine) : Machine → Prop where
  | flags (c : Control) : Nudge m { m with control := c }
  | wake (c : Control) {starting : Bool} (hp : m.phase = .gate .asleep starting) :
      Nudge m { m with control := c, phase := .gate .locked starting }

variable {e : Executable} {limits : Limits} {m n : Machine}

theorem nudge_signal (m : Machine) (s : Signal) : Nudge m (m.signal s) := by
  unfold signal
  dsimp only
  split
  · next hp =>
    split
    · exact .wake _ hp
    · exact .flags _
  · exact .flags _

theorem nudge_stir (m : Machine) : Nudge m m.stir := by
  unfold stir
  split
  · next hp => exact .wake _ hp
  · exact .flags _

theorem isAsleep_iff : m.isAsleep = true ↔ ∃ starting, m.phase = .gate .asleep starting := by
  unfold isAsleep
  constructor
  · intro h
    split at h
    · next starting hp => exact ⟨starting, hp⟩
    · cases h
  · rintro ⟨starting, hp⟩
    simp only [hp]

/-- What a property needs in order to hold after every schedule. -/
theorem moves_keeps {P : Machine → Prop} {ms : List Move}
    (hP : ∀ (k : Machine), ∀ a ∈ ms, P k → P (k.move e limits a)) (hm : P m) :
    P (m.moves e limits ms) := by
  induction ms generalizing m with
  | nil => exact hm
  | cons a ms ih =>
    refine ih (fun k b hb => hP k b (List.mem_cons_of_mem _ hb)) ?_
    exact hP m a List.mem_cons_self hm

/-- A property that turns and nudges keep holds after every schedule. -/
theorem moves_keeps_of_turn {P : Machine → Prop}
    (ht : ∀ k, P k → Turn e limits k (k.step e limits) → P (k.step e limits))
    (hn : ∀ k n, P k → Nudge k n → P n) (ms : List Move) (hm : P m) :
    P (m.moves e limits ms) := by
  refine moves_keeps (fun k a _ hk => ?_) hm
  cases a with
  | step => exact step_keeps (ht k hk) hk
  | stir => exact hn _ _ hk k.nudge_stir
  | signal s => exact hn _ _ hk (k.nudge_signal s)

theorem moves_append (m : Machine) (ms ms' : List Move) :
    m.moves e limits (ms ++ ms') = (m.moves e limits ms).moves e limits ms' :=
  List.foldl_append

theorem moves_cancel (m : Machine) (before after : List Move) :
    m.moves e limits (before ++ .signal .cancel :: after) =
      ((m.moves e limits before).signal .cancel).moves e limits after :=
  moves_append m before _

theorem Nudge.fate (h : Nudge m n) : n.fate e limits = m.fate e limits := by
  cases h with
  | flags c => rfl
  | wake c hp =>
    rw [fate_of_phase hp]
    rfl

theorem Nudge.inBudget (hm : m.InBudget limits) (h : Nudge m n) : n.InBudget limits := by
  cases h with
  | flags c => exact hm
  | wake c hp => exact fun _ => hm (by simp [isOver, hp])

theorem Nudge.linked (hm : m.Linked e) (h : Nudge m n) : n.Linked e := by
  cases h with
  | flags c => exact ⟨hm.frames, hm.phase⟩
  | wake c hp => exact ⟨hm.frames, trivial⟩

theorem Nudge.trace (h : Nudge m n) : n.trace = m.trace := by
  cases h with
  | flags c => rfl
  | wake c hp => rfl

theorem Nudge.world (h : Nudge m n) : n.world = m.world := by
  cases h with
  | flags c => rfl
  | wake c hp => rfl

theorem Nudge.phase_of_isOver (h : Nudge m n) (ho : m.isOver = true) : n.phase = m.phase := by
  cases h with
  | flags c => rfl
  | wake c hp => simp [isOver, hp] at ho

theorem Linked.moves (he : e.Linked) (hm : m.Linked e) (limits : Limits) (ms : List Move) :
    (m.moves e limits ms).Linked e :=
  moves_keeps_of_turn (fun _ hk h => h.linked he hk) (fun _ _ hk h => h.linked hk) ms hm

/-- A turn either leaves the trace and the world alone or is the publication of an action. -/
theorem Turn.quiet_or_publish (h : Turn e limits m n) :
    (n.trace = m.trace ∧ n.world = m.world) ∨
      ∃ p line next, m.phase = .publishing p line next ∧
        n = { m with
          world := next
          trace := ⟨p, line, next⟩ :: m.trace
          phase := .gate .askCancelled false } := by
  cases h with
  | publish hp => exact .inr ⟨_, _, _, hp, rfl⟩
  | permit => exact .inl ⟨pass_trace _ _, pass_world _ _⟩
  | pass => exact .inl ⟨pass_trace _ _, pass_world _ _⟩
  | @node node => cases node <;> exact .inl ⟨rfl, rfl⟩
  | _ => exact .inl ⟨rfl, rfl⟩

theorem Turn.trace_suffix (h : Turn e limits m n) : m.trace <:+ n.trace := by
  rcases h.quiet_or_publish with ⟨htr, -⟩ | ⟨p, line, next, -, rfl⟩
  · exact htr ▸ List.suffix_rfl
  · exact List.suffix_cons _ _

/-- A run only adds to the trace. -/
theorem trace_suffix_run (e : Executable) (limits : Limits) (m : Machine) :
    m.trace <:+ (m.run e limits).trace := by
  refine run_keeps (P := fun n => m.trace <:+ n.trace) (fun k n hk h => ?_) List.suffix_rfl
  exact hk.trans h.trace_suffix

/-! ## Pausing -/

/-- A run that is on its way to a fate and that nobody has cancelled. -/
structure Steady (e : Executable) (limits : Limits) (f : Effect) (m : Machine) : Prop where
  cancelled : m.control.cancelled = false
  inBudget : m.InBudget limits
  fate : m.fate e limits = f

theorem Steady.turn {f : Effect} (hm : m.Steady e limits f)
    (h : Turn e limits m (m.step e limits)) : (m.step e limits).Steady e limits f := by
  have hfate := h.fate_step hm.cancelled hm.inBudget
  exact ⟨h.flags.1.trans hm.cancelled, h.inBudget hm.inBudget, hfate.trans hm.fate⟩

theorem Steady.nudge {f : Effect} (hm : m.Steady e limits f) (h : Nudge m n)
    (hc : n.control.cancelled = false) : n.Steady e limits f :=
  ⟨hc, h.inBudget hm.inBudget, h.fate.trans hm.fate⟩

theorem control_signal (m : Machine) (s : Signal) : (m.signal s).control = s.apply m.control := by
  unfold signal
  dsimp only
  split
  · split <;> rfl
  · rfl

theorem cancelled_signal (m : Machine) {s : Signal} (hc : s ≠ .cancel) (hr : s ≠ .reset) :
    (m.signal s).control.cancelled = m.control.cancelled := by
  rw [control_signal]
  cases s with
  | pause => rfl
  | resume => rfl
  | step => rfl
  | cancel => exact absurd rfl hc
  | reset => exact absurd rfl hr

theorem control_stir (m : Machine) : m.stir.control = m.control := by
  unfold stir
  split <;> rfl

theorem Steady.move {f : Effect} (hm : m.Steady e limits f) {a : Move}
    (hc : a ≠ .signal .cancel) (hr : a ≠ .signal .reset) :
    (m.move e limits a).Steady e limits f := by
  cases a with
  | step => exact step_keeps hm.turn hm
  | stir =>
    have hs : m.stir.control.cancelled = false := by rw [control_stir, hm.cancelled]
    exact hm.nudge m.nudge_stir hs
  | signal s =>
    have hs : (m.signal s).control.cancelled = m.control.cancelled :=
      m.cancelled_signal (fun h => hc (h ▸ rfl)) (fun h => hr (h ▸ rfl))
    exact hm.nudge (m.nudge_signal s) (hs.trans hm.cancelled)

theorem Steady.moves {f : Effect} (hm : m.Steady e limits f) {ms : List Move}
    (hc : .signal .cancel ∉ ms) (hr : .signal .reset ∉ ms) :
    (m.moves e limits ms).Steady e limits f := by
  refine moves_keeps (fun k a ha hk => ?_) hm
  exact hk.move (fun h => hc (h ▸ ha)) (fun h => hr (h ▸ ha))

theorem steady_start (e : Executable) (limits : Limits) (w : World) :
    (start w).Steady e limits ((start w).fate e limits) :=
  ⟨rfl, fun _ => Nat.zero_le _, rfl⟩

theorem phase_of_report? {r : Report} (h : m.report? = some r) :
    m.phase = .finished r.outcome := by
  obtain ⟨outcome, ho, rfl⟩ := Option.map_eq_some_iff.1 h
  unfold outcome? at ho
  split at ho
  · next hp =>
    cases ho
    exact hp
  · cases ho

/-- A run that has a fate and is over has the report of that fate. -/
theorem report?_of_fate {f : Effect} (hf : m.fate e limits = f) {r : Report}
    (h : m.report? = some r) : f.report? = some r := by
  have ho : m.isOver = true := by simp [isOver, phase_of_report? h]
  rw [← hf, report?_fate_of_isOver ho, h]

/-! ## Cancelling -/

/-- A run that has performed a beginning of a fate, and that is cancelled or still on its way. -/
structure Toward (e : Executable) (limits : Limits) (f : Effect) (m : Machine) : Prop where
  inBudget : m.InBudget limits
  begun : m.trace.reverse <+: f.trace
  course : m.phase = .finished .cancelled ∨ m.fate e limits = f

theorem toward_start (e : Executable) (limits : Limits) (w : World) :
    (start w).Toward e limits ((start w).fate e limits) :=
  ⟨fun _ => Nat.zero_le _, List.nil_prefix, .inr rfl⟩

theorem Toward.turn {f : Effect} (hm : m.Toward e limits f)
    (ht : Turn e limits m (m.step e limits)) : (m.step e limits).Toward e limits f := by
  have hf : m.fate e limits = f := by
    refine hm.course.resolve_left fun hp => ?_
    have ho := ht.isOver_eq_false
    simp [isOver, hp] at ho
  rcases fate_step hm.inBudget with h | h
  · refine ⟨ht.inBudget hm.inBudget, ?_, .inl h⟩
    rcases ht.quiet_or_publish with ⟨htr, -⟩ | ⟨p, line, next, -, hn⟩
    · rw [htr]
      exact hm.begun
    · rw [hn] at h
      cases h
  · have hn := h.trans hf
    exact ⟨ht.inBudget hm.inBudget, hn ▸ trace_prefix_fate _, .inr hn⟩

theorem Toward.nudge {f : Effect} (hm : m.Toward e limits f) (h : Nudge m n) :
    n.Toward e limits f := by
  refine ⟨h.inBudget hm.inBudget, h.trace ▸ hm.begun, ?_⟩
  rcases hm.course with hp | hf
  · exact .inl ((h.phase_of_isOver (by simp [isOver, hp])).trans hp)
  · exact .inr (h.fate.trans hf)

theorem Toward.moves {f : Effect} (hm : m.Toward e limits f) (ms : List Move) :
    (m.moves e limits ms).Toward e limits f :=
  moves_keeps_of_turn (fun _ hk => hk.turn) (fun _ _ hk => hk.nudge) ms hm

/-- The world is the one of the latest action, or the one at the start. -/
def Reported (w : World) (m : Machine) : Prop :=
  m.world = (m.trace.head?.map Event.world).getD w

theorem reported_start (w : World) : (start w).Reported w := rfl

theorem Reported.moves {w : World} (hm : m.Reported w) (ms : List Move) :
    (m.moves e limits ms).Reported w := by
  refine moves_keeps_of_turn (fun k hk h => ?_) (fun k n hk h => ?_) ms hm
  · rcases h.quiet_or_publish with ⟨htr, hw⟩ | ⟨p, line, next, -, hn⟩
    · rw [Reported, htr, hw]
      exact hk
    · rw [hn]
      rfl
  · rw [Reported, h.trace, h.world]
    exact hk

/-- The actions that a machine performs before it looks at the control again. -/
def poised (m : Machine) : Nat :=
  match m.phase with
  | .acting _ _ | .publishing _ _ _ => 1
  | _ => 0

theorem poised_le_one (m : Machine) : m.poised ≤ 1 := by
  unfold poised
  split <;> omega

theorem poised_pass (m : Machine) (starting : Bool) : (m.pass e starting).poised = 0 := by
  unfold pass
  repeat' split
  all_goals rfl

theorem Turn.poised_le (hc : m.control.cancelled = true) (h : Turn e limits m n) :
    n.poised ≤ m.poised := by
  cases h with
  | accept hp => simp [poised, hp]
  | node hp hf hc' => simp [hc] at hc'
  | permit hp hc' => simp [hc] at hc'
  | pass hp => simp [poised_pass]
  | leave hp => simp [poised, hp]
  | repeatDone hp => simp [poised, hp]
  | repeatAgain hp => simp [poised, hp]
  | _ => simp [poised, fail, finish]

theorem Nudge.poised_le (h : Nudge m n) : n.poised ≤ m.poised := by
  cases h with
  | flags c => exact Nat.le_refl _
  | wake c hp => exact Nat.zero_le _

/-- A run that was cancelled when it stood at `k`. -/
structure Stopping (k m : Machine) : Prop where
  cancelled : m.control.cancelled = true
  awake : m.isAsleep = false
  few : ∃ new : List Event, m.trace = new ++ k.trace ∧ new.length + m.poised ≤ k.poised

theorem Stopping.turn {k : Machine} (hm : Stopping k m) (h : Turn e limits m n) :
    Stopping k n := by
  refine ⟨h.flags.1.trans hm.cancelled, ?_, ?_⟩
  · by_contra ha
    have hw := (h.wakeful (by simpa using ha)).1
    rw [h.flags.1, hm.cancelled] at hw
    cases hw
  · obtain ⟨new, hnew, hle⟩ := hm.few
    rcases h.quiet_or_publish with ⟨htr, -⟩ | ⟨p, line, next, hp, rfl⟩
    · have hpo := h.poised_le hm.cancelled
      exact ⟨new, htr.trans hnew, by omega⟩
    · refine ⟨⟨p, line, next⟩ :: new, by rw [hnew, List.cons_append], ?_⟩
      simp only [poised, hp] at hle ⊢
      exact hle

theorem Stopping.nudge {k : Machine} (hm : Stopping k m) (h : Nudge m n)
    (hc : n.control.cancelled = true) : Stopping k n := by
  cases h with
  | flags c => exact ⟨hc, hm.awake, hm.few⟩
  | wake c hp =>
    have ha := hm.awake
    simp [isAsleep, hp] at ha

theorem Stopping.moves {k : Machine} (hm : Stopping k m) {ms : List Move}
    (hr : .signal .reset ∉ ms) : Stopping k (m.moves e limits ms) := by
  refine moves_keeps (fun l a ha hl => ?_) hm
  cases a with
  | step => exact step_keeps hl.turn hl
  | stir =>
    have hc : l.stir.control.cancelled = true := by rw [control_stir, hl.cancelled]
    exact hl.nudge l.nudge_stir hc
  | signal s =>
    have hc : (l.signal s).control.cancelled = true := by
      rw [control_signal]
      cases s with
      | reset => exact absurd ha hr
      | cancel => rfl
      | _ => exact hl.cancelled
    exact hl.nudge (l.nudge_signal s) hc

/-- A signal to cancel wakes a sleeper. -/
theorem stopping_cancel (k : Machine) : Stopping k (k.signal .cancel) := by
  refine ⟨by rw [control_signal]; rfl, ?_, [], ?_, ?_⟩
  · unfold signal
    cases hp : k.phase with
    | gate stage starting => cases stage <;> simp [isAsleep, Signal.wakes]
    | _ => simp [isAsleep]
  · exact (k.nudge_signal .cancel).trace
  · rw [List.length_nil, Nat.zero_add]
    exact (k.nudge_signal .cancel).poised_le

theorem stopping_moves (e : Executable) (limits : Limits) (k : Machine) {ms : List Move}
    (hr : .signal .reset ∉ ms) : Stopping k ((k.signal .cancel).moves e limits ms) :=
  k.stopping_cancel.moves hr

/-- After the signal there is at most one action more, and none if it came at a gate. -/
theorem Stopping.few_new {k : Machine} (hm : Stopping k m) :
    ∃ new, m.trace = new ++ k.trace ∧ new.length ≤ 1 ∧
      ∀ stage starting, k.phase = .gate stage starting → new = [] := by
  obtain ⟨new, hnew, hle⟩ := hm.few
  have hone := k.poised_le_one
  refine ⟨new, hnew, by omega, fun stage starting hp => ?_⟩
  have hzero : k.poised = 0 := by simp [poised, hp]
  exact List.length_eq_zero_iff.1 (by omega)

theorem Stopping.run_isOver {k : Machine} (hm : Stopping k m) :
    (m.run e limits).isOver = true := by
  have hrun : Stopping k (m.run e limits) := run_keeps (fun _ _ hk => hk.turn) hm
  exact isOver_run hrun.awake

end Machine

theorem Executable.trace_run (e : Executable) (limits : Limits) (w : World) :
    (e.run limits w).trace.reverse = ((Machine.start w).fate e limits).trace :=
  (Machine.free_start w).trace_run

theorem Executable.report?_run (e : Executable) (limits : Limits) (w : World) :
    (e.run limits w).report? = ((Machine.start w).fate e limits).report? :=
  (Machine.free_start w).report?_run

/-- Pausing does not show: under any schedule of steps and of signals that pause, resume or grant
permits, a run has performed a beginning of the undisturbed run, and when it ends it has the report
of the undisturbed run. -/
theorem Executable.paused_run_agrees (e : Executable) (limits : Limits) (w : World)
    {ms : List Move} (hc : .signal .cancel ∉ ms) (hr : .signal .reset ∉ ms) :
    ((Machine.start w).moves e limits ms).trace.reverse <+: (e.run limits w).trace.reverse ∧
      ∀ r, ((Machine.start w).moves e limits ms).report? = some r →
        (e.run limits w).report? = some r := by
  have hsteady := (Machine.steady_start e limits w).moves hc hr
  refine ⟨?_, fun r hm => ?_⟩
  · rw [trace_run, ← hsteady.fate]
    exact Machine.trace_prefix_fate _
  · rw [report?_run]
    exact Machine.report?_of_fate hsteady.fate hm

/-- A run is paused in the middle of its first action, stirs once in its sleep, and is granted one
action more. -/
def Move.stop : List Move :=
  List.replicate 14 .step ++ [.signal .pause, .step, .step, .step, .step, .stir, .signal .step] ++
    List.replicate 16 .step

/-- Then it is resumed and goes on to its end. -/
def Move.stopAndGo : List Move := stop ++ .signal .resume :: List.replicate 240 .step

theorem Executable.patrol_paused_run_agrees :
    .signal .cancel ∉ Move.stopAndGo ∧ .signal .reset ∉ Move.stopAndGo ∧
      (∃ held : Machine, (Machine.start .empty).moves patrol {} Move.stop = held ∧
        held.isAsleep = true ∧ held.trace.length = 2 ∧
        held.trace.reverse <+: (patrol.run {} .empty).trace.reverse) ∧
      ∃ r : Report, ((Machine.start .empty).moves patrol {} Move.stopAndGo).report? = some r ∧
        r.outcome = .completed ∧ r.trace.length = 20 ∧
        (patrol.run {} .empty).report? = some r := by
  have hc : .signal .cancel ∉ Move.stopAndGo := by decide
  have hr : .signal .reset ∉ Move.stopAndGo := by decide
  obtain ⟨hbegun, -⟩ := paused_run_agrees patrol {} .empty
    (fun h => hc (List.mem_append_left _ h)) (fun h => hr (List.mem_append_left _ h))
  obtain ⟨-, hend⟩ := paused_run_agrees patrol {} .empty hc hr
  have hreport : ((Machine.start .empty).moves patrol {} Move.stopAndGo).report?.map
      (fun r => (r.outcome, r.trace.length)) = some (.completed, 20) := by decide +kernel
  obtain ⟨r, hsome, hpair⟩ := Option.map_eq_some_iff.1 hreport
  obtain ⟨ho, hl⟩ := Prod.mk.inj hpair
  refine ⟨hc, hr, ⟨_, rfl, ?_, ?_, hbegun⟩, r, hsome, ho, hl, hend r hsome⟩
  · decide +kernel
  · decide +kernel

/-- Cancelling is prompt and clean. Under any schedule without a reset, a run has performed a
beginning of the undisturbed run, it ends as cancelled or with the report of the undisturbed run,
and the world is the one of its latest action. After a signal to cancel it performs at most one
action, and none if the signal finds it at a gate, and when it is left alone it ends. -/
theorem Executable.cancelled_run_stops {p : Program} {requested : Option String} {e : Executable}
    (h : p.compile requested = .ok e) (limits : Limits) (w : World) {ms : List Move}
    (hr : .signal .reset ∉ ms) :
    ((Machine.start w).moves e limits ms).trace.reverse <+: (e.run limits w).trace.reverse ∧
      (∀ r, ((Machine.start w).moves e limits ms).report? = some r →
        r.outcome = .cancelled ∨ (e.run limits w).report? = some r) ∧
      ((Machine.start w).moves e limits ms).Reported w ∧
      ∀ before after, ms = before ++ .signal .cancel :: after →
        (∃ new, ((Machine.start w).moves e limits ms).trace =
            new ++ ((Machine.start w).moves e limits before).trace ∧ new.length ≤ 1 ∧
          ∀ stage starting,
            ((Machine.start w).moves e limits before).phase = .gate stage starting → new = []) ∧
        ∃ r, (((Machine.start w).moves e limits ms).run e limits).report? = some r := by
  have htoward := (Machine.toward_start e limits w).moves ms
  refine ⟨?_, fun r hm => ?_, (Machine.reported_start w).moves ms, ?_⟩
  · rw [trace_run]
    exact htoward.begun
  · rw [report?_run]
    rcases htoward.course with hp | hf
    · rw [Machine.phase_of_report? hm] at hp
      exact .inl (Phase.finished.inj hp)
    · exact .inr (Machine.report?_of_fate hf hm)
  · rintro before after rfl
    have hafter : .signal .reset ∉ after := fun ha =>
      hr (List.mem_append_right _ (List.mem_cons_of_mem _ ha))
    rw [Machine.moves_cancel]
    have hstop := Machine.stopping_moves e limits ((Machine.start w).moves e limits before) hafter
    refine ⟨hstop.few_new, ?_⟩
    have he := Program.linked_of_compile h
    have hlinked := (Machine.linked_start e w).moves he limits (before ++ .signal .cancel :: after)
    rw [Machine.moves_cancel] at hlinked
    exact Machine.exists_report? (hlinked.run he limits) hstop.run_isOver

/-- A run is held behind its second action and cancelled there. -/
def Move.heldAndCancelled : List Move := stop ++ [.signal .cancel, .step]

theorem Executable.patrol_cancelled_run_stops :
    Program.patrol.compile none = .ok patrol ∧ .signal .reset ∉ Move.heldAndCancelled ∧
      ∃ held cancelled : Machine, (Machine.start .empty).moves patrol {} Move.stop = held ∧
        (Machine.start .empty).moves patrol {} Move.heldAndCancelled = cancelled ∧
        held.trace.length = 2 ∧ cancelled.trace = held.trace ∧
        cancelled.outcome? = some .cancelled ∧ cancelled.Reported .empty ∧
        cancelled.trace.reverse <+: (patrol.run {} .empty).trace.reverse := by
  have h : Program.patrol.compile none = .ok patrol := rfl
  have hr : .signal .reset ∉ Move.heldAndCancelled := by decide
  obtain ⟨hbegun, -, hw, hstop⟩ := cancelled_run_stops h {} .empty hr
  obtain ⟨⟨new, hnew, -, hgate⟩, -⟩ := hstop Move.stop [.step] rfl
  have hasleep : ((Machine.start .empty).moves patrol {} Move.stop).isAsleep = true := by
    decide +kernel
  obtain ⟨starting, hphase⟩ := Machine.isAsleep_iff.1 hasleep
  rw [hgate _ _ hphase, List.nil_append] at hnew
  exact ⟨h, hr, _, _, rfl, rfl, by decide +kernel, hnew, by decide +kernel, hw, hbegun⟩

end Karel
