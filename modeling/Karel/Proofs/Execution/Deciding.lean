import Karel.Proofs.Execution.Controlled

/-! # Deciding a condition

A machine that tests a condition takes two steps for each query that it asks: it counts the query,
and then it looks at the world. Where it stands after any number of steps is therefore known in
advance, from the queries that the condition asks in the world and from the budget: between two
queries, between counting one and looking, at its decision, or beyond the budget. `Deciding` lists
these four. Signals do not move a machine that tests, and only the one to cancel can end it.
-/
namespace Karel
namespace Condition

/-- The queries that are asked for the value, from left to right and no further than needed. -/
def asked : Condition → World → List Query
  | .query q _, _ => [q]
  | .not c, w => c.asked w
  | .and l r, w => l.asked w ++ if l.holds w then r.asked w else []
  | .or l r, w => l.asked w ++ if l.holds w then [] else r.asked w

theorem length_asked (c : Condition) (w : World) : (c.asked w).length = c.queries w := by
  induction c with
  | query q p => rfl
  | not c ih => exact ih
  | and l r ihl ihr | or l r ihl ihr =>
    simp only [asked, queries, List.length_append, ihl]
    split <;> simp only [ihr, List.length_nil]

end Condition

/-- The queries that are still asked after an answer. -/
def Verdict.asked (w : World) : Verdict → List Query
  | .known _ => []
  | .pending rest => rest.asked w

/-- The first query comes first, and the others are those that its answer leaves. -/
theorem Condition.asked_eq_cons (c : Condition) (w : World) :
    c.asked w = c.first :: (c.answer (c.first.holds w)).asked w := by
  induction c with
  | query q p => rfl
  | not c ih =>
    rw [asked, ih, first, answer]
    cases c.answer (c.first.holds w) <;> rfl
  | and l r ihl ihr | or l r ihl ihr =>
    have hl := l.answer_leaves w
    rw [asked, ihl, first, answer]
    cases h : l.answer (l.first.holds w) with
    | known value =>
      rw [h] at hl
      cases value <;> simp [Verdict.asked, hl.1]
    | pending rest =>
      rw [h] at hl
      simp [Verdict.asked, asked, hl.1]

namespace Condition

/-- Once the queries in `past` are answered, a condition has come to another one: that has its value
and asks its other queries. -/
structure ComesTo (w : World) (c : Condition) (past : List Query) (rest : Condition) : Prop where
  value : rest.holds w = c.holds w
  asked : past ++ rest.asked w = c.asked w

namespace ComesTo
variable {w : World} {c rest next : Condition} {past : List Query}

theorem refl (w : World) (c : Condition) : c.ComesTo w [] c := ⟨rfl, rfl⟩

theorem queries_eq (h : c.ComesTo w past rest) : past.length + rest.queries w = c.queries w := by
  rw [← length_asked, ← length_asked, ← h.asked, List.length_append]

theorem lt_queries (h : c.ComesTo w past rest) : past.length < c.queries w := by
  have hqueries := h.queries_eq
  have hpos := rest.queries_pos w
  omega

theorem getElem?_asked (h : c.ComesTo w past rest) :
    (c.asked w)[past.length]? = some rest.first := by
  rw [← h.asked, rest.asked_eq_cons, List.getElem?_append_right (Nat.le_refl _), Nat.sub_self]
  rfl

/-- An answer that decides what is left decides the condition, and it is the last one. -/
theorem known {value : Bool} (h : c.ComesTo w past rest)
    (ha : rest.answer (rest.first.holds w) = .known value) :
    c.holds w = value ∧ c.queries w = past.length + 1 := by
  have hleaves := rest.answer_leaves w
  rw [ha] at hleaves
  obtain ⟨hvalue, hone⟩ := hleaves
  rw [← h.value, ← h.queries_eq, hone]
  exact ⟨hvalue, rfl⟩

theorem pending (h : c.ComesTo w past rest)
    (ha : rest.answer (rest.first.holds w) = .pending next) :
    c.ComesTo w (past ++ [rest.first]) next := by
  have hleaves := rest.answer_leaves w
  have hasked := rest.asked_eq_cons w
  rw [ha] at hleaves hasked
  refine ⟨hleaves.1.symm.trans h.value, ?_⟩
  rw [List.append_assoc, ← h.asked, hasked]
  rfl

end ComesTo
end Condition

namespace Machine

/-- Where a machine that began as `m` to test a condition stands after so many steps of its own. -/
inductive Deciding (limits : Limits) (m : Machine) (c : Condition) (line : Nat)
    (yes no : List Frame) : Nat → Machine → Prop where
  -- The queries in `past` are answered, and the next one is still to be counted.
  | testing {past : List Query} {rest : Condition} (control : Control)
      (hc : control.cancelled = false) (hb : m.steps + past.length ≤ limits.budget)
      (hr : c.ComesTo m.world past rest) :
      Deciding limits m c line yes no (2 * past.length)
        { m with control, steps := m.steps + past.length, phase := .testing rest line yes no }
  -- The next one is counted, and the machine is about to look.
  | sensing {past : List Query} {rest : Condition} (control : Control)
      (hc : control.cancelled = false) (hb : m.steps + past.length + 1 ≤ limits.budget)
      (hr : c.ComesTo m.world past rest) :
      Deciding limits m c line yes no (2 * past.length + 1)
        { m with control, steps := m.steps + past.length + 1, phase := .sensing rest line yes no }
  | decided (control : Control) (hc : control.cancelled = false)
      (hb : m.steps + c.queries m.world ≤ limits.budget) :
      Deciding limits m c line yes no (2 * c.queries m.world)
        { m with
          control, steps := m.steps + c.queries m.world
          frames := (if c.holds m.world then yes else no) ++ m.frames, phase := .running }
  | exceeded {k : Nat} (control : Control) (hc : control.cancelled = false)
      (hb : limits.budget < m.steps + c.queries m.world) (hk : 2 * (limits.budget - m.steps) < k) :
      Deciding limits m c line yes no k
        { m with
          control, steps := limits.budget + 1
          phase := .finished (.fault ⟨line, .budgetExceeded limits.budget⟩) }

namespace Deciding
variable {e : Executable} {limits : Limits} {m n n' : Machine} {c : Condition} {line k : Nat}
  {yes no : List Frame}

theorem cancelled (h : Deciding limits m c line yes no k n) : n.control.cancelled = false := by
  cases h <;> assumption

theorem start (hp : m.phase = .testing c line yes no) (hs : m.steps ≤ limits.budget)
    (hc : m.control.cancelled = false) : Deciding limits m c line yes no 0 m := by
  obtain ⟨control, world, frames, depth, steps, trace, phase⟩ := m
  cases hp
  change Deciding limits _ c line yes no (2 * ([] : List Query).length) _
  exact .testing control hc hs (.refl _ c)

/-- The next query is counted, unless the budget has no room for it. -/
theorem count {past : List Query} {rest : Condition} {control : Control}
    (hc : control.cancelled = false) (hb : m.steps + past.length ≤ limits.budget)
    (hr : c.ComesTo m.world past rest) :
    Deciding limits m c line yes no (2 * past.length + 1)
      (Machine.step e limits { m with
        control, steps := m.steps + past.length, phase := .testing rest line yes no }) := by
  have hlt := hr.lt_queries
  simp only [Machine.step, charge, hc, Bool.false_eq_true, if_false]
  split
  · next hover =>
    have hsteps : m.steps + past.length = limits.budget := by omega
    rw [hsteps]
    exact .exceeded control hc (by omega) (by omega)
  · next hin => exact .sensing control hc (Nat.le_of_not_lt hin) hr

/-- The answer to the next query decides the condition or leaves a smaller one. -/
theorem look {past : List Query} {rest : Condition} {control : Control}
    (hc : control.cancelled = false) (hb : m.steps + past.length + 1 ≤ limits.budget)
    (hr : c.ComesTo m.world past rest) :
    Deciding limits m c line yes no (2 * past.length + 1 + 1)
      (Machine.step e limits { m with
        control, steps := m.steps + past.length + 1, phase := .sensing rest line yes no }) := by
  simp only [Machine.step, sense]
  cases ha : rest.answer (rest.first.holds m.world) with
  | known value =>
    obtain ⟨hvalue, hqueries⟩ := hr.known ha
    have hsteps : m.steps + past.length + 1 = m.steps + c.queries m.world := by omega
    have hd : Deciding limits m c line yes no _ _ := .decided control hc (hsteps ▸ hb)
    rw [hvalue, hqueries] at hd
    cases value <;> exact hd
  | pending next =>
    have hroom : m.steps + (past ++ [rest.first]).length ≤ limits.budget := by
      rw [List.length_append]
      exact hb
    have hd : Deciding limits m c line yes no _ _ := .testing control hc hroom (hr.pending ha)
    rw [List.length_append] at hd
    exact hd

theorem step (h : Deciding limits m c line yes no k n)
    (hk : m.steps + c.queries m.world ≤ limits.budget → k < 2 * c.queries m.world) :
    Deciding limits m c line yes no (k + 1) (n.step e limits) := by
  cases h with
  | testing control hc hb hr => exact count hc hb hr
  | sensing control hc hb hr => exact look hc hb hr
  | decided control hc hb => exact absurd (hk hb) (Nat.lt_irrefl _)
  | exceeded control hc hb hk' => exact .exceeded control hc hb (Nat.lt_succ_of_lt hk')

/-- What comes from outside does not move a machine that tests. -/
theorem nudge (h : Deciding limits m c line yes no k n) (hn : Nudge n n')
    (hc : n'.control.cancelled = false) : Deciding limits m c line yes no k n' := by
  cases hn with
  | flags control =>
    cases h with
    | testing _ _ hb hr => exact .testing control hc hb hr
    | sensing _ _ hb hr => exact .sensing control hc hb hr
    | decided _ _ hb => exact .decided control hc hb
    | exceeded _ _ hb hk => exact .exceeded control hc hb hk
  | wake control hp => cases h <;> cases hp

theorem move (h : Deciding limits m c line yes no k n) {a : Move} (ha : a ≠ .signal .cancel)
    (hk : m.steps + c.queries m.world ≤ limits.budget →
      k + [a].count .step ≤ 2 * c.queries m.world) :
    Deciding limits m c line yes no (k + [a].count .step) (n.move e limits a) := by
  cases a with
  | step => exact h.step hk
  | stir =>
    have hs : n.stir.control.cancelled = false := by rw [control_stir, h.cancelled]
    exact h.nudge n.nudge_stir hs
  | signal s =>
    have hs : (n.signal s).control.cancelled = false := by
      rw [control_signal]
      cases s with
      | cancel => exact absurd rfl ha
      | reset => rfl
      | pause | resume | step => exact h.cancelled
    exact h.nudge (n.nudge_signal s) hs

/-- A schedule without a signal to cancel moves a machine that tests by the steps in it. -/
theorem moves (h : Deciding limits m c line yes no k n) {ms : List Move}
    (hc : .signal .cancel ∉ ms)
    (hk : m.steps + c.queries m.world ≤ limits.budget →
      k + ms.count .step ≤ 2 * c.queries m.world) :
    Deciding limits m c line yes no (k + ms.count .step) (n.moves e limits ms) := by
  induction ms generalizing k n with
  | nil => exact h
  | cons a ms ih =>
    have hcount : ([a] ++ ms).count .step = [a].count .step + ms.count .step := List.count_append
    rw [List.singleton_append] at hcount
    rw [hcount, ← Nat.add_assoc] at hk ⊢
    have ha : a ≠ .signal .cancel := fun ha => hc (ha ▸ List.mem_cons_self)
    refine ih (h.move ha fun hb => ?_) (fun hm => hc (List.mem_cons_of_mem _ hm)) hk
    exact Nat.le_trans (Nat.le_add_right _ _) (hk hb)

/-! ## What the places say -/

theorem eq_decided (h : Deciding limits m c line yes no (2 * c.queries m.world) n)
    (hb : m.steps + c.queries m.world ≤ limits.budget) :
    n = { m with
      control := n.control, steps := m.steps + c.queries m.world
      frames := (if c.holds m.world then yes else no) ++ m.frames, phase := .running } := by
  generalize hk : 2 * c.queries m.world = k at h
  cases h with
  | testing control hc hb hr =>
    have hlt := hr.lt_queries
    omega
  | sensing => omega
  | decided => rfl
  | exceeded control hc hover => omega

theorem eq_exceeded (h : Deciding limits m c line yes no k n)
    (hb : limits.budget < m.steps + c.queries m.world) (hk : 2 * (limits.budget - m.steps) < k) :
    n = { m with
      control := n.control, steps := limits.budget + 1
      phase := .finished (.fault ⟨line, .budgetExceeded limits.budget⟩) } := by
  cases h with
  | testing control hc hin => omega
  | sensing control hc hin => omega
  | decided control hc hin => omega
  | exceeded => rfl

/-- Before the decision the counter is up by one for every query that was counted, at most to one
beyond the budget, and only the phase and the control have changed besides. -/
theorem eq_of_lt (h : Deciding limits m c line yes no k n) (hk : k < 2 * c.queries m.world) :
    n = { m with
      control := n.control, steps := min (m.steps + (k + 1) / 2) (limits.budget + 1)
      phase := n.phase } := by
  cases h with
  | @testing past rest control hc hb =>
    have hsteps : min (m.steps + (2 * past.length + 1) / 2) (limits.budget + 1) =
        m.steps + past.length := by omega
    rw [hsteps]
  | @sensing past rest control hc hb =>
    have hsteps : min (m.steps + (2 * past.length + 1 + 1) / 2) (limits.budget + 1) =
        m.steps + past.length + 1 := by omega
    rw [hsteps]
  | decided => exact absurd hk (Nat.lt_irrefl _)
  | exceeded control hc hb hover =>
    have hsteps : min (m.steps + (k + 1) / 2) (limits.budget + 1) = limits.budget + 1 := by omega
    rw [hsteps]

theorem getElem?_asked (h : Deciding limits m c line yes no k n) {rest : Condition} {l : Nat}
    {ys ns : List Frame} (hp : n.phase = .sensing rest l ys ns) :
    (c.asked m.world)[k / 2]? = some rest.first := by
  cases h with
  | testing | decided | exceeded => cases hp
  | @sensing past rest control hc hb hr =>
    cases hp
    have hk : (2 * past.length + 1) / 2 = past.length := by omega
    rw [hk]
    exact hr.getElem?_asked

end Deciding

/-- Testing a condition is to decide it from left to right and no further than needed, and every
query counts. Let a machine begin to test, and let any signals but the one to cancel come in between
its steps. If the budget has room for the queries that the condition asks in the world, then after
two steps for each of them the machine goes on with the frames for the value of the condition, and
the counter is up by their number. If the budget has no such room, the run ends with a fault at the
line of the test, one beyond the budget. At every moment before, the world, the trace, the frames
and the open calls are those of the beginning, the counter is up by one for every query so far, and
the query that the machine looks for is the next one of those that the condition asks. -/
theorem condition_decided_exactly (e : Executable) (limits : Limits) {m : Machine} {c : Condition}
    {line : Nat} {yes no : List Frame} (hp : m.phase = .testing c line yes no)
    (hs : m.steps ≤ limits.budget) (hc : m.control.cancelled = false) {ms : List Move}
    (hms : .signal .cancel ∉ ms) :
    (m.steps + c.queries m.world ≤ limits.budget → ms.count .step = 2 * c.queries m.world →
      m.moves e limits ms =
        { m with
          control := (m.moves e limits ms).control
          steps := m.steps + c.queries m.world
          frames := (if c.holds m.world then yes else no) ++ m.frames
          phase := .running }) ∧
    (limits.budget < m.steps + c.queries m.world →
      2 * (limits.budget - m.steps) < ms.count .step →
      m.moves e limits ms =
        { m with
          control := (m.moves e limits ms).control
          steps := limits.budget + 1
          phase := .finished (.fault ⟨line, .budgetExceeded limits.budget⟩) }) ∧
    (ms.count .step < 2 * c.queries m.world →
      m.moves e limits ms =
        { m with
          control := (m.moves e limits ms).control
          steps := min (m.steps + (ms.count .step + 1) / 2) (limits.budget + 1)
          phase := (m.moves e limits ms).phase } ∧
      ∀ rest l ys ns, (m.moves e limits ms).phase = .sensing rest l ys ns →
        (c.asked m.world)[ms.count .step / 2]? = some rest.first) := by
  have hcourse (hk : m.steps + c.queries m.world ≤ limits.budget →
      ms.count .step ≤ 2 * c.queries m.world) :
      Deciding limits m c line yes no (ms.count .step) (m.moves e limits ms) := by
    have h := (Deciding.start hp hs hc).moves (e := e) hms (by rwa [Nat.zero_add])
    rwa [Nat.zero_add] at h
  refine ⟨fun hb hk => ?_, fun hb hk => ?_, fun hk => ?_⟩
  · have h := hcourse fun _ => Nat.le_of_eq hk
    rw [hk] at h
    exact h.eq_decided hb
  · exact (hcourse fun hin => absurd hin (Nat.not_le_of_lt hb)).eq_exceeded hb hk
  · have h := hcourse fun _ => Nat.le_of_lt hk
    exact ⟨h.eq_of_lt hk, fun rest l ys ns hphase => h.getElem?_asked hphase⟩

end Machine

/-- A condition that the empty world decides by the first and the third of its four queries. -/
def Condition.skipping : Condition :=
  .or (.and (.not (.query .frontIsClear ⟨5, 10⟩)) (.query .leftIsClear ⟨5, 28⟩))
    (.and (.query .onBeeper ⟨6, 10⟩) (.query .beeperAhead ⟨6, 24⟩))

/-- A machine that begins to test it inside a call, with five steps counted. -/
def Machine.atSkipping : Machine where
  control := {}
  world := .empty
  frames := [.block [] true]
  depth := 1
  steps := 5
  phase := .testing .skipping 5 [.block [.action .turnLeft 7] false] []

/-- Four steps of a machine with signals in between. -/
def Move.hurried : List Move :=
  [.signal .pause, .step, .step, .signal .step, .step, .signal .reset, .step]

theorem Machine.skipping_decided_exactly :
    Condition.skipping.asked .empty = [.frontIsClear, .onBeeper] ∧
      .signal .cancel ∉ Move.hurried ∧
      atSkipping.moves .patrol ⟨7, 100⟩ Move.hurried =
        { atSkipping with steps := 7, phase := .running } ∧
      atSkipping.moves .patrol ⟨6, 100⟩ Move.hurried =
        { atSkipping with steps := 7, phase := .finished (.fault ⟨5, .budgetExceeded 6⟩) } := by
  have hms : .signal .cancel ∉ Move.hurried := by decide
  obtain ⟨hroom, -, -⟩ := condition_decided_exactly .patrol ⟨7, 100⟩ (m := atSkipping) rfl
    (by decide) rfl hms
  obtain ⟨-, hnone, -⟩ := condition_decided_exactly .patrol ⟨6, 100⟩ (m := atSkipping) rfl
    (by decide) rfl hms
  exact ⟨by decide, hms, hroom (by decide) (by decide), hnone (by decide) (by decide)⟩

end Karel
