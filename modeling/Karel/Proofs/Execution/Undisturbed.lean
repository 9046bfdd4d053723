import Karel.Proofs.Execution.Fate

/-! # Undisturbed runs

A run that nobody pauses or cancels comes to its end and does there what the program means. The
machine with its stack of frames and the interpreter by recursion on the nodes thus agree on the
outcome, the steps, every action with its world, and the world that is left.
-/
namespace Karel
namespace Machine

/-- A machine before its first step, under a control that asks for nothing. -/
def start (w : World) : Machine := { control := {}, world := w }

/-- Nobody holds the machine up. -/
structure Free (limits : Limits) (m : Machine) : Prop where
  cancelled : m.control.cancelled = false
  paused : m.control.paused = false
  awake : m.isAsleep = false
  inBudget : m.InBudget limits

variable {e : Executable} {limits : Limits} {m n : Machine}

theorem Turn.ne_cancelled (hc : m.control.cancelled = false) (h : Turn e limits m n) :
    n.phase ≠ .finished .cancelled := by
  intro hn
  cases h with
  | cancelAtGate hp hc' => simp [hc] at hc'
  | cancelAtNode hp hf hc' => simp [hc] at hc'
  | cancelAtTest hp hc' => simp [hc] at hc'
  | permit => exact pass_ne_finished _ _ _ hn
  | pass => exact pass_ne_finished _ _ _ hn
  | @node node nodes call rest hp => cases node <;> simp [execute, hp] at hn
  | leave hp => simp [hp] at hn
  | repeatDone hp => simp [hp] at hn
  | repeatAgain hp => simp [hp] at hn
  | _ => simp [fail, finish] at hn

theorem Free.turn (hm : m.Free limits) (h : Turn e limits m n) : n.Free limits := by
  obtain ⟨hc, hq⟩ := h.flags
  refine ⟨hc.trans hm.cancelled, hq.trans hm.paused, ?_, h.inBudget hm.inBudget⟩
  by_contra ha
  have hw := (h.wakeful (by simpa using ha)).2.1
  rw [hq, hm.paused] at hw
  cases hw

/-- Only a signal to cancel turns a machine from its fate. -/
theorem Turn.fate_step (hc : m.control.cancelled = false) (hm : m.InBudget limits)
    (h : Turn e limits m (m.step e limits)) :
    (m.step e limits).fate e limits = m.fate e limits := by
  rcases Machine.fate_step hm with hn | hn
  · exact absurd hn (h.ne_cancelled hc)
  · exact hn

/-- What every turn keeps, a run keeps. -/
theorem run_keeps {P : Machine → Prop} (hP : ∀ k n, P k → Turn e limits k n → P n) (hm : P m) :
    P (m.run e limits) := by
  fun_induction Machine.run e limits m with
  | case1 m hr => exact hm
  | case2 m hr _ ih => exact ih (hP _ _ hm (turn_step hr))

/-- A machine that rests and does not sleep has ended. -/
theorem isOver_run (h : (m.run e limits).isAsleep = false) : (m.run e limits).isOver = true := by
  have hrest := isResting_run e limits m
  unfold isResting at hrest
  unfold isAsleep at h
  unfold isOver
  split at hrest <;> simp_all

/-- A machine that nobody holds up runs to its fate. -/
theorem Free.fate_run (hm : m.Free limits) : (m.run e limits).fate e limits = m.fate e limits := by
  fun_induction Machine.run e limits m with
  | case1 m hr => rfl
  | case2 m hr _ ih =>
    have ht : Turn e limits m (m.step e limits) := turn_step hr
    exact (ih (hm.turn ht)).trans (ht.fate_step hm.cancelled hm.inBudget)

theorem Free.run_isOver (hm : m.Free limits) : (m.run e limits).isOver = true := by
  have hfree : (m.run e limits).Free limits := run_keeps (fun _ _ hk => hk.turn) hm
  exact isOver_run hfree.awake

theorem Free.report?_run (hm : m.Free limits) :
    (m.run e limits).report? = (m.fate e limits).report? := by
  rw [← report?_fate_of_isOver hm.run_isOver, hm.fate_run]

theorem Free.trace_run (hm : m.Free limits) :
    (m.run e limits).trace.reverse = (m.fate e limits).trace := by
  rw [← trace_fate_of_isOver hm.run_isOver, hm.fate_run]

theorem free_start (w : World) : (start w).Free limits :=
  ⟨rfl, rfl, rfl, fun _ => Nat.zero_le _⟩

theorem linked_start (e : Executable) (w : World) : (start w).Linked e :=
  ⟨fun _ hf => absurd hf List.not_mem_nil, trivial⟩

theorem Linked.run (he : e.Linked) (hm : m.Linked e) (limits : Limits) :
    (m.run e limits).Linked e :=
  run_keeps (fun _ _ hk h => h.linked he hk) hm

/-- A run that is over and not lost has a report. -/
theorem exists_report? (hm : m.Linked e) (ho : m.isOver = true) :
    ∃ r, m.report? = some r := by
  unfold isOver at ho
  split at ho
  · next outcome hp => exact ⟨_, by simp only [report?, outcome?, hp, Option.map_some]; rfl⟩
  · next target hp => exact absurd hp (hm.not_lost target)
  · cases ho

theorem fate_start_eq_entryTask (e : Executable) (limits : Limits) (w : World) :
    (start w).fate e limits = e.entryTask limits 0 limits.budget w := by
  have ht : (start w).fate e limits =
      ((e.entryTask limits 0).seq .skip) limits.budget w :=
    Effect.counted_zero_andThen w _
  rw [ht, Task.seq_skip]

/-- The fate of a machine before its first step is what the program means. -/
theorem fate_start (e : Executable) (limits : Limits) (w : World) :
    (start w).fate e limits = e.interpret limits w := by
  rw [fate_start_eq_entryTask]
  unfold Executable.entryTask Executable.interpret
  cases e.entryRoutine? with
  | none => rfl
  | some r => exact e.callTask_apply limits 0 e.entry r.line limits.budget w

end Machine

/-- The undisturbed run of a compiled program ends, and its report is the one of the interpreter:
the same outcome, the same steps, the same actions with their worlds, the same world at the end. -/
theorem Executable.run_eq_interpret {p : Program} {requested : Option String} {e : Executable}
    (h : p.compile requested = .ok e) (limits : Limits) (w : World) :
    ∃ r : Report, (e.run limits w).report? = some r ∧ (e.interpret limits w).report? = some r := by
  have hfree : (Machine.start w).Free limits := Machine.free_start w
  have hlinked := (Machine.linked_start e w).run (Program.linked_of_compile h) limits
  obtain ⟨r, hr⟩ := Machine.exists_report? hlinked hfree.run_isOver
  refine ⟨r, hr, ?_⟩
  rw [← Machine.fate_start, ← hfree.report?_run]
  exact hr

/-- A program with a loop in a command that another one calls from a `repeat`. -/
def Program.patrol : Program where
  commands :=
    [⟨"main", [.repeat 2 [.call "side" ⟨2, 3⟩] ⟨1, 15⟩], ⟨1, 1⟩⟩,
      ⟨"side",
        [.while (.and (.query .frontIsClear ⟨5, 10⟩) (.not (.query .onBeeper ⟨5, 30⟩)))
            [.call "moveForward" ⟨6, 5⟩] ⟨5, 3⟩,
          .call "turnLeft" ⟨8, 3⟩], ⟨4, 1⟩⟩]

/-- Its executable. -/
def Executable.patrol : Executable where
  entry := 0
  routines :=
    [⟨"main", [.repeat 2 [.call 1 2] 1], 1⟩,
      ⟨"side",
        [.while (.and (.query .frontIsClear ⟨5, 10⟩) (.not (.query .onBeeper ⟨5, 30⟩)))
            [.action .moveForward 6] 5,
          .action .turnLeft 8], 4⟩]

theorem Executable.patrol_run_eq_interpret :
    Program.patrol.compile none = .ok patrol ∧
      ∃ r : Report, (patrol.run {} World.empty).report? = some r ∧
        (patrol.interpret {} World.empty).report? = some r := by
  have h : Program.patrol.compile none = .ok patrol := by rfl
  exact ⟨h, run_eq_interpret h {} World.empty⟩

end Karel
