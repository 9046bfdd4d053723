import Mathlib.Data.Nat.Count
import Karel.Proofs.Execution.Limits

/-! # Undisturbed runs halt

Steps that count are the ones that take a node up and the ones that ask a query. A run may take any
number of other steps in between, since it returns, leaves blocks and repeats empty bodies without
counting. That it halts all the same is `Machine.step_decreases`: with the budget fixed, the work
that is left in the frames goes down until the next step that counts. Here the iterates of the step
are followed from the start to the end, with the steps that count told apart from the others, so
that the counter is compared with what it is meant to count.
-/
namespace Karel
namespace Machine

/-- Whether the next step counts: it takes a node up or asks the next query of a condition. -/
def counts (m : Machine) : Bool :=
  match m.phase, m.frames with
  | .running, .block (_ :: _) _ :: _ => true
  | .testing _ _ _ _, _ => true
  | _, _ => false

/-- How many of the next `n` steps count. -/
def ticks (e : Executable) (limits : Limits) (m : Machine) (n : Nat) : Nat :=
  Nat.count (fun k => ((step e limits)^[k] m).counts = true) n

variable {e : Executable} {limits : Limits} {m n : Machine}

theorem counts_of_isResting (h : m.isResting = true) : m.counts = false := by
  unfold isResting at h
  split at h
  · next hp => simp only [counts, hp]
  · next hp => simp only [counts, hp]
  · next hp => simp only [counts, hp]
  · cases h

theorem Turn.steps_eq (hc : m.control.cancelled = false) (h : Turn e limits m n) :
    n.steps = m.steps + if m.counts = true then 1 else 0 := by
  cases h with
  | permit hp | pass hp =>
    rw [pass_steps]
    simp [counts, hp]
  | cancelAtNode hp hf hc' => simp [hc] at hc'
  | cancelAtTest hp hc' => simp [hc] at hc'
  | @node node nodes call rest hp hf => cases node <;> simp [execute, counts, hp, hf]
  | _ => simp [counts, fail, finish, *]

theorem Turn.steps_le (h : Turn e limits m n) : n.steps ≤ m.steps + 1 := by
  cases h with
  | permit | pass =>
    rw [pass_steps]
    exact Nat.le_succ _
  | @node node => cases node <;> exact Nat.le_refl _
  | overAtNode | overAtTest | test => exact Nat.le_refl _
  | _ => exact Nat.le_succ _

theorem step_steps (hc : m.control.cancelled = false) :
    (m.step e limits).steps = m.steps + if m.counts = true then 1 else 0 := by
  cases h : m.isResting with
  | true =>
    rw [step_of_isResting h, counts_of_isResting h]
    rfl
  | false => exact (turn_step h).steps_eq hc

theorem iterate_keeps {P : Machine → Prop} (hP : ∀ k n, P k → Turn e limits k n → P n) (hm : P m)
    (n : Nat) : P ((step e limits)^[n] m) := by
  induction n with
  | zero => exact hm
  | succ n ih =>
    rw [Function.iterate_succ_apply']
    exact step_keeps (hP _ _ ih) ih

theorem steps_iterate (hc : m.control.cancelled = false) (n : Nat) :
    ((step e limits)^[n] m).steps = m.steps + m.ticks e limits n := by
  induction n with
  | zero => rfl
  | succ n ih =>
    have hfree : ((step e limits)^[n] m).control.cancelled = false :=
      iterate_keeps (P := fun k => k.control.cancelled = false)
        (fun k l hk h => h.flags.1.trans hk) hc n
    have hcount : m.ticks e limits (n + 1) = m.ticks e limits n +
        if ((step e limits)^[n] m).counts = true then 1 else 0 := Nat.count_succ _ n
    rw [Function.iterate_succ_apply', step_steps hfree, ih, hcount, Nat.add_assoc]

theorem exists_iterate_run (e : Executable) (limits : Limits) (m : Machine) :
    ∃ n, m.run e limits = (step e limits)^[n] m := by
  fun_induction Machine.run e limits m with
  | case1 m hr => exact ⟨0, rfl⟩
  | case2 m hr _ ih =>
    obtain ⟨n, hn⟩ := ih
    exact ⟨n + 1, hn⟩

/-- The counter goes no further than one beyond the budget. -/
def Metered (limits : Limits) (m : Machine) : Prop :=
  m.InBudget limits ∧ m.steps ≤ limits.budget + 1

theorem Turn.metered (hm : m.Metered limits) (h : Turn e limits m n) : n.Metered limits := by
  have hbudget := hm.1 h.isOver_eq_false
  have hsteps := h.steps_le
  exact ⟨h.inBudget hm.1, by omega⟩

theorem metered_start (limits : Limits) (w : World) : (start w).Metered limits :=
  ⟨fun _ => Nat.zero_le _, Nat.zero_le _⟩

/-- A run that nobody cancels, with its actions and its steps within their bounds. -/
structure Bounded (limits : Limits) (m : Machine) : Prop where
  cancelled : m.control.cancelled = false
  counted : m.Counted limits
  metered : m.Metered limits
  going : m.phase ≠ .finished .cancelled

theorem Bounded.turn (hm : m.Bounded limits) (h : Turn e limits m n) : n.Bounded limits where
  cancelled := h.flags.1.trans hm.cancelled
  counted := hm.counted.turn h
  metered := h.metered hm.metered
  going := h.ne_cancelled hm.cancelled

theorem bounded_start (limits : Limits) (w : World) : (start w).Bounded limits :=
  ⟨rfl, counted_start limits w, metered_start limits w, nofun⟩

theorem bounded_iterate (e : Executable) (limits : Limits) (w : World) (n : Nat) :
    ((step e limits)^[n] (start w)).Bounded limits :=
  iterate_keeps (fun _ _ hk => hk.turn) (bounded_start limits w) n

theorem Bounded.report (hm : m.Bounded limits) {r : Report} (hr : m.report? = some r) :
    r.outcome ≠ .cancelled ∧ r.steps = m.steps ∧ r.trace.length ≤ limits.budget := by
  have heq := eq_of_report? hr
  refine ⟨?_, by rw [heq], ?_⟩
  · intro hc
    have hp := phase_of_report? hr
    rw [hc] at hp
    exact hm.going hp
  · have hwithin := hm.counted.within
    rw [heq, List.length_reverse]
    omega

end Machine

/-- Every undisturbed run of a compiled program halts. After some number of steps it has a report,
the one of the run, whose outcome is not a cancellation. At most one more of its steps count than
the budget has, and the counter shows just these; no more actions are performed than the budget has.
For a budget that leaves room for one more in 64 bits, the counter never needs more bits. -/
theorem Executable.run_halts {p : Program} {requested : Option String} {e : Executable}
    (h : p.compile requested = .ok e) (limits : Limits) (w : World)
    (hb : limits.budget < 2 ^ 64 - 1) :
    (∃ n r, ((Machine.step e limits)^[n] (Machine.start w)).report? = some r ∧
      (e.run limits w).report? = some r ∧ r.outcome ≠ .cancelled ∧
      r.steps = (Machine.start w).ticks e limits n ∧
      (Machine.start w).ticks e limits n ≤ limits.budget + 1 ∧
      r.trace.length ≤ limits.budget) ∧
    ∀ k, ((Machine.step e limits)^[k] (Machine.start w)).steps < 2 ^ 64 := by
  refine ⟨?_, fun k => ?_⟩
  · obtain ⟨r, hr⟩ := exists_report?_run h limits w
    obtain ⟨n, hn⟩ := Machine.exists_iterate_run e limits (Machine.start w)
    have hreport : ((Machine.step e limits)^[n] (Machine.start w)).report? = some r := by
      rw [← hn]
      exact hr
    have hbounded := Machine.bounded_iterate e limits w n
    have hticks : ((Machine.step e limits)^[n] (Machine.start w)).steps =
        (Machine.start w).ticks e limits n := by
      rw [Machine.steps_iterate rfl]
      exact Nat.zero_add _
    obtain ⟨hgoing, hsteps, hactions⟩ := hbounded.report hreport
    exact ⟨n, r, hreport, hr, hgoing, hsteps.trans hticks, hticks ▸ hbounded.metered.2, hactions⟩
  · have hsteps := (Machine.bounded_iterate e limits w k).metered.2
    omega

/-- A program that would go on for ever: it repeats nothing, waits for a beeper that nobody brings,
and calls itself after that. -/
def Program.idler : Program where
  commands :=
    [⟨"main",
      [.repeat 3 [] ⟨2, 3⟩, .while (.not (.query .onBeeper ⟨3, 11⟩)) [] ⟨3, 3⟩,
        .call "main" ⟨4, 3⟩], ⟨1, 1⟩⟩]

def Executable.idler : Executable where
  entry := 0
  routines :=
    [⟨"main",
      [.repeat 3 [] 2, .while (.not (.query .onBeeper ⟨3, 11⟩)) [] 3, .call 0 4], 1⟩]

/-- Here the bound is met: of a run with eight steps, nine count. -/
theorem Executable.idler_run_halts :
    Program.idler.compile none = .ok idler ∧ 8 < 2 ^ 64 - 1 ∧
      (∃ n r, ((Machine.step idler ⟨8, 5⟩)^[n] (Machine.start .empty)).report? = some r ∧
        r.outcome = .fault ⟨3, .budgetExceeded 8⟩ ∧
        (Machine.start .empty).ticks idler ⟨8, 5⟩ n = 9 ∧ r.trace.length ≤ 8) ∧
      ∀ k, ((Machine.step idler ⟨8, 5⟩)^[k] (Machine.start .empty)).steps < 2 ^ 64 := by
  have h : Program.idler.compile none = .ok idler := rfl
  have hb : 8 < 2 ^ 64 - 1 := by decide
  obtain ⟨⟨n, r, hn, hr, -, hsteps, -, hactions⟩, hk⟩ := run_halts h ⟨8, 5⟩ .empty hb
  have hend : (idler.run ⟨8, 5⟩ .empty).report?.map (fun r => (r.outcome, r.steps)) =
      some (.fault ⟨3, .budgetExceeded 8⟩, 9) := by cbv
  rw [hr] at hend
  obtain ⟨ho, hs⟩ := Prod.mk.inj (Option.some.inj hend)
  exact ⟨h, hb, ⟨n, r, hn, ho, hsteps ▸ hs, hactions⟩, hk⟩

end Karel
