import Karel.Execution.Session
import Karel.Proofs.Execution.Sleep

/-! # Single steps

A permit is spent at a gate, and the action that it pays for comes behind that gate. While a run is
paused, the permits granted so far are therefore those that are left, one for each action performed,
and one more when the run has passed a gate and not come to the next. Every step keeps this account.
A run that rests has no permit left and stands at a gate, or it is over, and the account says how
many actions the permits have let through.
-/
namespace Karel
namespace Machine

/-- The states of runs. A run starts under any control and in any world, and between two of its
steps the outside may send signals and publish worlds. -/
inductive Reachable (e : Executable) (limits : Limits) : Machine → Prop where
  | start (control : Control) (w : World) : Reachable e limits { control, world := w }
  | step {m : Machine} (h : Reachable e limits m) : Reachable e limits (m.step e limits)
  | stir {m : Machine} (h : Reachable e limits m) : Reachable e limits m.stir
  | request {m : Machine} (h : Reachable e limits m) (r : Request) :
      Reachable e limits (m.request r)

/-- At a gate, with nothing that lets the run through. -/
structure Held (m : Machine) : Prop where
  atGate : ∃ stage starting, m.phase = .gate stage starting
  paused : m.control.paused = true
  permits : m.control.permits = 0
  cancelled : m.control.cancelled = false

/-- Whether the run is on its way from one gate to the next, or over. -/
def underway (m : Machine) : Nat :=
  match m.phase with
  | .gate _ _ => 0
  | _ => 1

/-- The permits that have been granted, as far as the machine shows. -/
def granted (m : Machine) : Nat := m.control.permits + m.trace.length + m.underway

variable {e : Executable} {limits : Limits} {m n : Machine}

theorem Reachable.inBudget (h : m.Reachable e limits) : m.InBudget limits := by
  induction h with
  | start control w => exact fun _ => Nat.zero_le _
  | step h ih => exact step_keeps (fun ht => ht.inBudget ih) ih
  | @stir m h ih => exact m.nudge_stir.inBudget ih
  | @request m h r ih =>
    cases r with
    | signal s => exact (m.nudge_signal s).inBudget ih
    | publish w => exact ih

theorem Reachable.linked (he : e.Linked) (h : m.Reachable e limits) : m.Linked e := by
  induction h with
  | start control w => exact ⟨fun _ hf => absurd hf List.not_mem_nil, trivial⟩
  | step h ih => exact step_keeps (fun ht => ht.linked he ih) ih
  | @stir m h ih => exact m.nudge_stir.linked ih
  | @request m h r ih =>
    cases r with
    | signal s => exact (m.nudge_signal s).linked ih
    | publish w => exact ⟨ih.frames, ih.phase⟩

theorem Reachable.moves (h : m.Reachable e limits) (ms : List Move) :
    (m.moves e limits ms).Reachable e limits := by
  refine moves_keeps (fun k a _ hk => ?_) h
  cases a with
  | step => exact hk.step
  | stir => exact hk.stir
  | signal s => exact hk.request (.signal s)

theorem underway_of_gate {stage : Gate} {starting : Bool} (hp : m.phase = .gate stage starting) :
    m.underway = 0 := by
  simp only [underway, hp]

theorem underway_of_isOver (h : m.isOver = true) : m.underway = 1 := by
  unfold isOver at h
  unfold underway
  split
  · next hp => simp [hp] at h
  · rfl

theorem underway_pass (m : Machine) (starting : Bool) : (m.pass e starting).underway = 1 := by
  unfold pass
  repeat' split
  all_goals rfl

/-- A step of a paused run moves a permit from one place of the account to another. -/
theorem Turn.granted_eq (hc : m.control.cancelled = false) (hq : m.control.paused = true)
    (h : Turn e limits m n) : n.granted = m.granted := by
  unfold granted
  cases h with
  | cancelAtGate _ hc' | cancelAtNode _ _ hc' | cancelAtTest _ hc' => simp [hc] at hc'
  | pass hp hq' => simp [hq] at hq'
  | permit hp _ _ hn =>
    rw [pass_control, pass_trace, underway_pass, underway_of_gate hp, hn]
    simp only
    omega
  | @node node nodes call rest hp => cases node <;> simp [execute, underway, hp]
  | publish hp =>
    simp only [underway, hp, List.length_cons]
    omega
  | _ => simp [underway, fail, finish, *]

theorem Nudge.underway (h : Nudge m n) : n.underway = m.underway := by
  cases h with
  | flags c => rfl
  | wake c hp => simp [Machine.underway, hp]

/-- A run on its way to a fate under single steps. -/
structure Paced (e : Executable) (limits : Limits) (f : Effect) (count : Nat) (m : Machine) :
    Prop where
  steady : m.Steady e limits f
  unserved : m.Unserved
  paused : m.control.paused = true
  account : m.granted = count

variable {f : Effect} {count : Nat}

theorem Paced.turn (hm : m.Paced e limits f count) (h : Turn e limits m (m.step e limits)) :
    (m.step e limits).Paced e limits f count := by
  have haccount := h.granted_eq hm.steady.cancelled hm.paused
  exact ⟨hm.steady.turn h, h.wakeful.unserved, h.flags.2.trans hm.paused,
    haccount.trans hm.account⟩

theorem Paced.stir (hm : m.Paced e limits f count) : m.stir.Paced e limits f count := by
  have hn := m.nudge_stir
  have hc := m.control_stir
  refine ⟨hm.steady.nudge hn (hc ▸ hm.steady.cancelled), ?_, hc ▸ hm.paused, ?_⟩
  · exact (wakeful_of_awake m.isAsleep_stir).unserved
  · rw [granted, hc, hn.trace, hn.underway]
    exact hm.account

theorem Paced.grant (hm : m.Paced e limits f count) :
    (m.signal .step).Paced e limits f (count + 1) := by
  have hn := m.nudge_signal .step
  have hc := m.control_signal .step
  refine ⟨hm.steady.nudge hn ?_, hm.unserved.signal .step, ?_, ?_⟩
  · rw [hc]
    exact hm.steady.cancelled
  · rw [hc]
    rfl
  · have haccount := hm.account
    unfold granted at haccount ⊢
    rw [hc, hn.trace, hn.underway, ← haccount]
    simp only [Signal.apply]
    omega

/-- Under a schedule of single steps, as many permits are granted as there are signals. -/
theorem Paced.moves (hm : m.Paced e limits f count) {ms : List Move}
    (hms : ∀ a ∈ ms, a = .step ∨ a = .stir ∨ a = .signal .step) :
    (m.moves e limits ms).Paced e limits f (count + ms.count (.signal .step)) := by
  induction ms generalizing m count with
  | nil => exact hm
  | cons a ms ih =>
    have hrest : ∀ b ∈ ms, b = .step ∨ b = .stir ∨ b = .signal .step :=
      fun b hb => hms b (List.mem_cons_of_mem _ hb)
    rcases hms a List.mem_cons_self with rfl | rfl | rfl
    · exact ih (step_keeps hm.turn hm) hrest
    · exact ih hm.stir hrest
    · have hnext := ih hm.grant hrest
      rw [List.count_cons_self, Nat.add_comm _ 1, ← Nat.add_assoc]
      exact hnext

theorem Paced.run (hm : m.Paced e limits f count) : (m.run e limits).Paced e limits f count := by
  fun_induction Machine.run e limits m with
  | case1 m hr => exact hm
  | case2 m hr _ ih => exact ih (hm.turn (turn_step hr))

theorem Paced.of_isAsleep (hm : m.Paced e limits f count) (h : m.isAsleep = true) :
    m.trace.length = count ∧ m.control = { paused := true } := by
  obtain ⟨starting, hp⟩ := isAsleep_iff.1 h
  obtain ⟨hc, hn⟩ := hm.unserved h
  have haccount := hm.account
  rw [granted, hn, underway_of_gate hp] at haccount
  exact ⟨by omega, Control.ext hm.paused hc hn⟩

theorem Paced.of_isOver (hm : m.Paced e limits f count) (h : m.isOver = true) :
    m.trace.reverse = f.trace ∧ m.report? = f.report? ∧
      m.control.permits + f.trace.length + 1 = count := by
  have htrace : m.trace.reverse = f.trace := by rw [← hm.steady.fate, trace_fate_of_isOver h]
  refine ⟨htrace, by rw [← hm.steady.fate, report?_fate_of_isOver h], ?_⟩
  have haccount := hm.account
  rw [granted, underway_of_isOver h] at haccount
  rw [← htrace, List.length_reverse]
  exact haccount

theorem Paced.trace_prefix (hm : m.Paced e limits f count) : m.trace.reverse <+: f.trace :=
  hm.steady.fate ▸ trace_prefix_fate m

/-- With no more permits than its fate has actions, a run is held again when it comes to rest. -/
theorem Paced.held_run (hm : m.Paced e limits f count) (hle : count ≤ f.trace.length) :
    (m.run e limits).isAsleep = true ∧ (m.run e limits).trace.length = count ∧
      (m.run e limits).control = { paused := true } := by
  cases hs : (m.run e limits).isAsleep with
  | true => exact ⟨rfl, hm.run.of_isAsleep hs⟩
  | false =>
    obtain ⟨-, -, hpermits⟩ := hm.run.of_isOver (isOver_run hs)
    omega

/-- With more permits than that it comes to its end, and has permits left over. -/
theorem Paced.ended_run (hm : m.Paced e limits f count) (hlt : f.trace.length < count) :
    (m.run e limits).trace.reverse = f.trace ∧ (m.run e limits).report? = f.report? ∧
      (m.run e limits).control =
        { paused := true, permits := count - f.trace.length - 1 } := by
  cases hs : (m.run e limits).isAsleep with
  | true =>
    have hlength := (hm.run.of_isAsleep hs).1
    have hle := hm.run.trace_prefix.length_le
    rw [List.length_reverse, hlength] at hle
    omega
  | false =>
    obtain ⟨htrace, hreport, hpermits⟩ := hm.run.of_isOver (isOver_run hs)
    refine ⟨htrace, hreport, Control.ext hm.run.paused hm.run.steady.cancelled ?_⟩
    change (m.run e limits).control.permits = count - f.trace.length - 1
    omega

/-- At rest a run has performed as much of its fate as permits were granted. -/
theorem Paced.trace_run (hm : m.Paced e limits f count) :
    (m.run e limits).trace.reverse = f.trace.take count := by
  rcases Nat.lt_or_ge f.trace.length count with hlt | hle
  · rw [(hm.ended_run hlt).1, List.take_of_length_le (Nat.le_of_lt hlt)]
  · have hprefix := hm.run.trace_prefix
    rw [List.prefix_iff_eq_take.1 hprefix, List.length_reverse, (hm.held_run hle).2.1]

theorem Held.paced (hk : m.Held) (e : Executable) (hb : m.InBudget limits) :
    m.Paced e limits (m.fate e limits) m.trace.length := by
  obtain ⟨stage, starting, hp⟩ := hk.atGate
  refine ⟨⟨hk.cancelled, hb, rfl⟩, fun _ => ⟨hk.cancelled, hk.permits⟩, hk.paused, ?_⟩
  rw [granted, hk.permits, underway_of_gate hp, Nat.zero_add, Nat.add_zero]

/-- A run that is held and then resumed is free. -/
theorem Held.free_resume (hk : m.Held) (hb : m.InBudget limits) :
    (m.signal .resume).Free limits := by
  refine ⟨?_, ?_, ?_, (m.nudge_signal .resume).inBudget hb⟩
  · rw [control_signal]
    exact hk.cancelled
  · rw [control_signal]
    rfl
  · rw [isAsleep_signal]
    exact Bool.and_false _

end Machine

theorem Effect.trace_of_report? {f : Effect} {r : Report} (h : f.report? = some r) :
    r.trace = f.trace := by
  unfold report? at h
  split at h
  · cases h
    rfl
  · cases h
    rfl
  · cases h

/-- Single steps are exact. Take any state in which a run is held at a gate, and let `left` be the
actions that it would still perform if it were resumed. Under any schedule of `n` single steps and
of the machine's own moves, no more than the first `n` of these actions are performed, and exactly
these once the machine rests. If there were so many, the run is held again; otherwise it has ended
with the report of the resumed run, and the permits beyond the one that brought it to its end are
left over. -/
theorem Executable.single_steps_exact {p : Program} {requested : Option String} {e : Executable}
    (h : p.compile requested = .ok e) (limits : Limits) {k : Machine}
    (hk : k.Reachable e limits) (hheld : k.Held) {ms : List Move} {n : Nat}
    (hms : ∀ a ∈ ms, a = .step ∨ a = .stir ∨ a = .signal .step)
    (hn : ms.count (.signal .step) = n) :
    ∃ (left : List Event) (r : Report),
      ((k.signal .resume).run e limits).report? = some r ∧ r.trace = k.trace.reverse ++ left ∧
      (k.moves e limits ms).trace.reverse <+: k.trace.reverse ++ left.take n ∧
      ((k.moves e limits ms).run e limits).trace.reverse = k.trace.reverse ++ left.take n ∧
      (n ≤ left.length →
        ((k.moves e limits ms).run e limits).isAsleep = true ∧
          ((k.moves e limits ms).run e limits).control = { paused := true }) ∧
      (left.length < n →
        ((k.moves e limits ms).run e limits).report? = some r ∧
          ((k.moves e limits ms).run e limits).control =
            { paused := true, permits := n - left.length - 1 }) := by
  have he := Program.linked_of_compile h
  have hfree := hheld.free_resume hk.inBudget
  have hlinked := ((k.nudge_signal .resume).linked (hk.linked he)).run he limits
  obtain ⟨r, hr⟩ := Machine.exists_report? hlinked hfree.run_isOver
  have hreport : (k.fate e limits).report? = some r := by
    rw [← (k.nudge_signal .resume).fate, ← hfree.report?_run]
    exact hr
  obtain ⟨left, hleft⟩ : k.trace.reverse <+: (k.fate e limits).trace := k.trace_prefix_fate
  have hlength : (k.fate e limits).trace.length = k.trace.length + left.length := by
    rw [← hleft, List.length_append, List.length_reverse]
  have hpaced := (hheld.paced e hk.inBudget).moves hms
  rw [hn] at hpaced
  have htrace : ((k.moves e limits ms).run e limits).trace.reverse =
      k.trace.reverse ++ left.take n := by
    rw [hpaced.trace_run, ← hleft, ← List.length_reverse, List.take_length_add_append]
  refine ⟨left, r, hr, ?_, ?_, htrace, fun hle => ?_, fun hlt => ?_⟩
  · rw [Effect.trace_of_report? hreport, hleft]
  · rw [← htrace, List.reverse_prefix]
    exact Machine.trace_suffix_run e limits _
  · obtain ⟨hs, -, hcontrol⟩ := hpaced.held_run (by omega)
    exact ⟨hs, hcontrol⟩
  · obtain ⟨-, hend, hcontrol⟩ := hpaced.ended_run (by omega)
    refine ⟨hend.trans hreport, ?_⟩
    rw [hcontrol, hlength, Nat.add_sub_add_left]

/-- The patrol, held at its first gate. -/
def Machine.heldPatrol : Machine :=
  (start .empty).moves .patrol {} [.signal .pause, .step, .step, .step]

theorem Executable.patrol_single_steps_exact :
    Program.patrol.compile none = .ok patrol ∧ Machine.heldPatrol.Held ∧
      ∃ (left : List Event) (r : Report),
        ((Machine.heldPatrol.signal .resume).run patrol {}).report? = some r ∧ r.trace = left ∧
        ((Machine.heldPatrol.moves patrol {} [.signal .step, .step, .signal .step, .step]).run
          patrol {}).trace.reverse = left.take 2 := by
  have h : Program.patrol.compile none = .ok patrol := rfl
  have hk : Machine.heldPatrol.Reachable patrol {} := (Machine.Reachable.start {} .empty).moves _
  have hheld : Machine.heldPatrol.Held := ⟨⟨.asleep, true, rfl⟩, rfl, rfl, rfl⟩
  have hms : ∀ a ∈ [Move.signal .step, .step, .signal .step, .step],
      a = .step ∨ a = .stir ∨ a = .signal .step := by decide
  obtain ⟨left, r, hr, hleft, -, htrace, -⟩ := single_steps_exact h {} hk hheld hms rfl
  exact ⟨h, hheld, left, r, hr, hleft, htrace⟩

end Karel
