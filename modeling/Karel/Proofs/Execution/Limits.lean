import Karel.Proofs.Execution.Walk

/-! # Limits

Two runs of one executable that differ in their limits take the same steps until a limit stops the
one that has less. So wider limits change nothing about a run that does not end for lack of steps or
of depth, and they only add to what such a run performs. A run that lacks steps has counted just one
beyond its budget, and every action it performed was counted within the budget.
-/
namespace Karel
namespace Outcome

/-- The run needed more steps than its budget has. -/
def OverBudget (o : Outcome) : Prop := ∃ line budget, o = .fault ⟨line, .budgetExceeded budget⟩

/-- The run needed more open calls than its limit. -/
def TooDeep (o : Outcome) : Prop :=
  ∃ line command depth, o = .fault ⟨line, .depthExceeded command depth⟩

/-- An end that wider limits may put off. -/
def Cut (l₁ l₂ : Limits) (o : Outcome) : Prop :=
  l₁.budget < l₂.budget ∧ o.OverBudget ∨ l₁.depth < l₂.depth ∧ o.TooDeep

end Outcome

namespace Machine

/-- The run is at an end that wider limits may put off. -/
def IsCut (l₁ l₂ : Limits) (m : Machine) : Prop := ∃ o, m.phase = .finished o ∧ o.Cut l₁ l₂

variable {e : Executable} {limits l₁ l₂ : Limits} {m n : Machine}

theorem charge_eq_or_isCut (hb : l₁.budget ≤ l₂.budget) (m : Machine) (line : Nat)
    (next : Machine → Machine) :
    charge l₁ m line next = charge l₂ m line next ∨ (charge l₁ m line next).IsCut l₁ l₂ := by
  unfold charge
  by_cases hc : m.control.cancelled = true
  · left
    rw [if_pos hc, if_pos hc]
  · rw [if_neg hc, if_neg hc]
    dsimp only
    rcases Nat.lt_or_eq_of_le hb with hlt | heq
    · by_cases hover : l₁.budget < m.steps + 1
      · right
        rw [if_pos hover]
        exact ⟨_, rfl, .inl ⟨hlt, line, l₁.budget, rfl⟩⟩
      · left
        rw [if_neg hover, if_neg (by omega)]
    · left
      rw [heq]

theorem openCall_eq_or_isCut (hd : l₁.depth ≤ l₂.depth) (m : Machine) (target line : Nat) :
    m.openCall e l₁ target line = m.openCall e l₂ target line ∨
      (m.openCall e l₁ target line).IsCut l₁ l₂ := by
  unfold openCall
  cases e.routines[target]? with
  | none => exact .inl rfl
  | some r =>
    dsimp only
    rcases Nat.lt_or_eq_of_le hd with hlt | heq
    · by_cases hdeep : l₁.depth ≤ m.depth
      · right
        rw [if_pos hdeep]
        exact ⟨_, rfl, .inr ⟨hlt, line, r.name, l₁.depth, rfl⟩⟩
      · left
        rw [if_neg hdeep, if_neg (by omega)]
    · left
      rw [heq]

/-- Only counting and calling look at the limits. -/
theorem step_eq_or_isCut (hb : l₁.budget ≤ l₂.budget) (hd : l₁.depth ≤ l₂.depth) (m : Machine) :
    m.step e l₁ = m.step e l₂ ∨ (m.step e l₁).IsCut l₁ l₂ := by
  unfold step
  cases m.phase with
  | calling target line => exact openCall_eq_or_isCut hd m target line
  | testing c line yes no => exact charge_eq_or_isCut hb m line _
  | running =>
    dsimp only
    unfold takeFrame
    split
    case h_3 node nodes call rest hf => exact charge_eq_or_isCut hb _ _ _
    all_goals exact .inl rfl
  | _ => exact .inl rfl

theorem run_of_isResting (h : m.isResting = true) : m.run e limits = m := by
  rw [run]
  split
  · rfl
  · next hr => simp [h] at hr

theorem run_step (m : Machine) : (m.step e limits).run e limits = m.run e limits := by
  cases h : m.isResting with
  | true => rw [step_of_isResting h]
  | false =>
    conv_rhs => rw [run]
    split
    · next hr => simp [h] at hr
    · rfl

theorem IsCut.isResting (h : m.IsCut l₁ l₂) : m.isResting = true := by
  obtain ⟨o, hp, -⟩ := h
  simp only [Machine.isResting, hp]

theorem Turn.trace_of_isCut (h : Turn e limits m n) (hn : n.IsCut l₁ l₂) : n.trace = m.trace := by
  obtain ⟨o, hp, -⟩ := hn
  rcases h.quiet_or_publish with ⟨htrace, -⟩ | ⟨p, line, next, -, rfl⟩
  · exact htrace
  · cases hp

/-- A run under limits is the one under wider limits, or a limit has cut it short. -/
theorem run_eq_or_isCut (hb : l₁.budget ≤ l₂.budget) (hd : l₁.depth ≤ l₂.depth) (m : Machine) :
    m.run e l₁ = m.run e l₂ ∨
      (m.run e l₁).IsCut l₁ l₂ ∧ (m.run e l₁).trace <:+ (m.run e l₂).trace := by
  fun_induction Machine.run e l₁ m with
  | case1 m hr => exact .inl (run_of_isResting hr).symm
  | case2 m hr _ ih =>
    rcases step_eq_or_isCut hb hd m with heq | hcut
    · rw [heq, run_step] at ih
      rwa [heq]
    · right
      have htrace := (turn_step hr).trace_of_isCut hcut
      rw [run_of_isResting hcut.isResting, htrace]
      exact ⟨hcut, trace_suffix_run e l₂ m⟩

/-- An action is counted before it is performed. -/
theorem Turn.actions_le (h : Turn e limits m n) :
    n.trace.length + n.poised + m.steps ≤ m.trace.length + m.poised + n.steps := by
  cases h with
  | permit | pass =>
    rw [pass_trace, pass_steps, poised_pass]
    exact Nat.add_le_add_right (Nat.le_add_right _ _) _
  | @node node nodes call rest hp =>
    cases node with
    | action p line => simp [execute, poised, hp, Nat.add_assoc, Nat.add_comm 1]
    | _ => simp [execute, poised, hp]
  | publish hp => simp [poised, hp]
  | _ => simp [poised, fail, finish, *]

/-- A run that lacks steps has counted one more than its budget has. -/
theorem Turn.exceeded (hm : m.InBudget limits) (h : Turn e limits m n) {line budget : Nat}
    (hn : n.phase = .finished (.fault ⟨line, .budgetExceeded budget⟩)) :
    budget = limits.budget ∧ n.steps = budget + 1 := by
  have hs := hm h.isOver_eq_false
  cases h with
  | overAtNode _ _ _ hb | overAtTest _ _ hb =>
    cases hn
    have hsteps : m.steps = limits.budget := by omega
    exact ⟨rfl, congrArg (· + 1) hsteps⟩
  | refuse hp ha =>
    cases hn
    exact (Primitive.names_of_check ha).elim
  | permit | pass => exact absurd hn (pass_ne_finished _ _ _)
  | @node node nodes call rest hp => cases node <;> simp [execute, hp] at hn
  | leave hp | repeatDone hp | repeatAgain hp => simp [hp] at hn
  | _ => cases hn

/-- What a run has counted. -/
structure Counted (limits : Limits) (m : Machine) : Prop where
  inBudget : m.InBudget limits
  actions : m.trace.length + m.poised ≤ m.steps
  within : m.trace.length + m.poised ≤ limits.budget
  exceeded : ∀ line budget, m.phase = .finished (.fault ⟨line, .budgetExceeded budget⟩) →
    budget = limits.budget ∧ m.steps = budget + 1

theorem poised_of_isOver (h : m.isOver = true) : m.poised = 0 := by
  unfold isOver at h
  split at h
  · next hp => simp only [poised, hp]
  · next hp => simp only [poised, hp]
  · cases h

theorem Counted.turn (hm : m.Counted limits) (h : Turn e limits m n) : n.Counted limits := by
  have hle := h.actions_le
  have hactions := hm.actions
  have hbudget := h.inBudget hm.inBudget
  refine ⟨hbudget, by omega, ?_, fun line budget => h.exceeded hm.inBudget⟩
  cases ho : n.isOver with
  | false =>
    have hsteps := hbudget ho
    omega
  | true =>
    have hwithin := hm.within
    rw [poised_of_isOver ho]
    rcases h.quiet_or_publish with ⟨htrace, -⟩ | ⟨p, line, next, -, rfl⟩
    · rw [htrace]
      omega
    · cases ho

theorem counted_start (limits : Limits) (w : World) : (start w).Counted limits :=
  ⟨fun _ => Nat.zero_le _, Nat.zero_le _, Nat.zero_le _, fun _ _ h => by cases h⟩

theorem Counted.run (hm : m.Counted limits) : (m.run e limits).Counted limits :=
  run_keeps (fun _ _ hk => hk.turn) hm

theorem eq_of_report? {r : Report} (h : m.report? = some r) :
    r = ⟨r.outcome, m.steps, m.trace.reverse, m.world⟩ := by
  obtain ⟨outcome, -, rfl⟩ := Option.map_eq_some_iff.1 h
  rfl

end Machine

namespace Executable

theorem exists_report?_run {p : Program} {requested : Option String} {e : Executable}
    (h : p.compile requested = .ok e) (limits : Limits) (w : World) :
    ∃ r, (e.run limits w).report? = some r := by
  have hlinked := (Machine.linked_start e w).run (Program.linked_of_compile h) limits
  exact Machine.exists_report? hlinked (Machine.free_start w).run_isOver

/-- Of two runs under different limits both leave the same, or the one with less is cut short. -/
theorem report_eq_or_cut {e : Executable} {l₁ l₂ : Limits} {w : World} {r₁ r₂ : Report}
    (hb : l₁.budget ≤ l₂.budget) (hd : l₁.depth ≤ l₂.depth)
    (h₁ : (e.run l₁ w).report? = some r₁) (h₂ : (e.run l₂ w).report? = some r₂) :
    r₂ = r₁ ∨ r₁.outcome.Cut l₁ l₂ ∧ r₁.trace <+: r₂.trace := by
  have hrun : e.run l₁ w = e.run l₂ w ∨
      (e.run l₁ w).IsCut l₁ l₂ ∧ (e.run l₁ w).trace <:+ (e.run l₂ w).trace :=
    Machine.run_eq_or_isCut hb hd (Machine.start w)
  rcases hrun with heq | ⟨⟨o, hp, hcut⟩, htrace⟩
  · left
    rw [heq, h₂] at h₁
    exact Option.some.inj h₁
  · right
    rw [Machine.phase_of_report? h₁] at hp
    rw [Phase.finished.inj hp, Machine.eq_of_report? h₁, Machine.eq_of_report? h₂]
    exact ⟨hcut, List.reverse_prefix.2 htrace⟩

/-- A run that lacks steps names its budget, has counted one step more, and every action that it
performed is within the budget. -/
theorem report_of_overBudget {e : Executable} {limits : Limits} {w : World} {r : Report}
    (h : (e.run limits w).report? = some r) (ho : r.outcome.OverBudget) :
    (∃ line, r.outcome = .fault ⟨line, .budgetExceeded limits.budget⟩) ∧
      r.steps = limits.budget + 1 ∧ r.trace.length ≤ limits.budget := by
  obtain ⟨line, budget, hr⟩ := ho
  have hcounted : (e.run limits w).Counted limits := (Machine.counted_start limits w).run
  have hp := Machine.phase_of_report? h
  rw [hr] at hp
  obtain ⟨rfl, hsteps⟩ := hcounted.exceeded line budget hp
  refine ⟨⟨line, hr⟩, ?_, ?_⟩
  · rw [Machine.eq_of_report? h]
    exact hsteps
  · have hwithin := hcounted.within
    rw [Machine.eq_of_report? h, List.length_reverse]
    omega

end Executable

/-- Limits only cut a run short. With a larger budget a run that does not lack steps leaves the same
report. One that does names its budget, has counted one step beyond it and performed no more actions
than it allows, and these begin what it performs with the larger budget. Likewise for the depth of
calls: a run that is not too deep leaves the same report under a larger limit, and one that is
performs the beginning of what it performs there. -/
theorem Executable.limits_only_cut_short {p : Program} {requested : Option String} {e : Executable}
    (h : p.compile requested = .ok e) (w : World) :
    (∀ b₁ b₂ d, b₁ ≤ b₂ → ∃ r₁ r₂ : Report,
      (e.run ⟨b₁, d⟩ w).report? = some r₁ ∧ (e.run ⟨b₂, d⟩ w).report? = some r₂ ∧
      (¬ r₁.outcome.OverBudget → r₂ = r₁) ∧
      (r₁.outcome.OverBudget →
        (∃ line, r₁.outcome = .fault ⟨line, .budgetExceeded b₁⟩) ∧ r₁.steps = b₁ + 1 ∧
          r₁.trace.length ≤ b₁ ∧ r₁.trace <+: r₂.trace)) ∧
    ∀ b d₁ d₂, d₁ ≤ d₂ → ∃ r₁ r₂ : Report,
      (e.run ⟨b, d₁⟩ w).report? = some r₁ ∧ (e.run ⟨b, d₂⟩ w).report? = some r₂ ∧
      (¬ r₁.outcome.TooDeep → r₂ = r₁) ∧ (r₁.outcome.TooDeep → r₁.trace <+: r₂.trace) := by
  refine ⟨fun b₁ b₂ d hb => ?_, fun b d₁ d₂ hd => ?_⟩
  · obtain ⟨r₁, h₁⟩ := exists_report?_run h ⟨b₁, d⟩ w
    obtain ⟨r₂, h₂⟩ := exists_report?_run h ⟨b₂, d⟩ w
    refine ⟨r₁, r₂, h₁, h₂, ?_⟩
    rcases report_eq_or_cut hb (Nat.le_refl d) h₁ h₂ with rfl | ⟨⟨-, hover⟩ | ⟨hlt, -⟩, hprefix⟩
    · refine ⟨fun _ => rfl, fun hover => ?_⟩
      obtain ⟨hline, hsteps, hactions⟩ := report_of_overBudget h₁ hover
      exact ⟨hline, hsteps, hactions, List.prefix_rfl⟩
    · obtain ⟨hline, hsteps, hactions⟩ := report_of_overBudget h₁ hover
      exact ⟨fun hn => absurd hover hn, fun _ => ⟨hline, hsteps, hactions, hprefix⟩⟩
    · exact absurd hlt (Nat.lt_irrefl d)
  · obtain ⟨r₁, h₁⟩ := exists_report?_run h ⟨b, d₁⟩ w
    obtain ⟨r₂, h₂⟩ := exists_report?_run h ⟨b, d₂⟩ w
    refine ⟨r₁, r₂, h₁, h₂, ?_⟩
    rcases report_eq_or_cut (Nat.le_refl b) hd h₁ h₂ with rfl | ⟨⟨hlt, -⟩ | ⟨-, hdeep⟩, hprefix⟩
    · exact ⟨fun _ => rfl, fun _ => List.prefix_rfl⟩
    · exact absurd hlt (Nat.lt_irrefl b)
    · exact ⟨fun hn => absurd hdeep hn, fun _ => hprefix⟩

/-- The patrol lacks steps when it has three of them, and its second call is too deep when one may
be open. With thirty steps and with room for calls it goes on. -/
theorem Executable.patrol_limits_only_cut_short :
    Program.patrol.compile none = .ok patrol ∧
      (∃ r₁ r₂ : Report,
        (patrol.run ⟨3, 100⟩ .empty).report? = some r₁ ∧
        (patrol.run ⟨30, 100⟩ .empty).report? = some r₂ ∧
        r₁.outcome.OverBudget ∧ r₁.steps = 4 ∧ r₁.trace.length ≤ 3 ∧ r₁.trace <+: r₂.trace) ∧
      ∃ r₁ r₂ : Report,
        (patrol.run ⟨30, 1⟩ .empty).report? = some r₁ ∧
        (patrol.run ⟨30, 100⟩ .empty).report? = some r₂ ∧
        r₁.outcome.TooDeep ∧ r₁.trace <+: r₂.trace := by
  have h : Program.patrol.compile none = .ok patrol := rfl
  obtain ⟨hbudget, hdepth⟩ := limits_only_cut_short h .empty
  refine ⟨h, ?_, ?_⟩
  · obtain ⟨r₁, r₂, h₁, h₂, -, hover⟩ := hbudget 3 30 100 (by decide)
    have hend : (patrol.run ⟨3, 100⟩ .empty).report?.map Report.outcome =
        some (.fault ⟨5, .budgetExceeded 3⟩) := by cbv
    rw [h₁] at hend
    have ho : r₁.outcome.OverBudget := ⟨5, 3, Option.some.inj hend⟩
    obtain ⟨-, hsteps, hactions, hprefix⟩ := hover ho
    exact ⟨r₁, r₂, h₁, h₂, ho, hsteps, hactions, hprefix⟩
  · obtain ⟨r₁, r₂, h₁, h₂, -, hdeep⟩ := hdepth 30 1 100 (by decide)
    have hend : (patrol.run ⟨30, 1⟩ .empty).report?.map Report.outcome =
        some (.fault ⟨2, .depthExceeded "side" 1⟩) := by cbv
    rw [h₁] at hend
    have ho : r₁.outcome.TooDeep := ⟨2, "side", 1, Option.some.inj hend⟩
    exact ⟨r₁, r₂, h₁, h₂, ho, hdeep ho⟩

end Karel
