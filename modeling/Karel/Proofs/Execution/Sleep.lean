import Mathlib.Data.List.Induction
import Karel.Proofs.Execution.Controlled

/-! # Sleeping at a gate

A machine falls asleep while it is paused, has no permit and is not cancelled. A signal that ends
this wakes it up, with one exception: a reset clears the flags and wakes nobody. A machine can
therefore be left asleep although nothing holds it any more, and the theorem at the end says exactly
when it is: a reset found it asleep, and nothing but further resets came after that.
-/
namespace Karel
namespace Machine

/-- Permits and the wish to cancel never reach a sleeper without waking it. -/
def Unserved (m : Machine) : Prop :=
  m.isAsleep = true → m.control.cancelled = false ∧ m.control.permits = 0

/-- Asleep although nobody pauses the run. -/
structure Overslept (m : Machine) : Prop where
  asleep : m.isAsleep = true
  unpaused : m.control.paused = false

variable {e : Executable} {limits : Limits} {m : Machine}

theorem Wakeful.unserved (h : m.Wakeful) : m.Unserved := by
  intro ha
  obtain ⟨hc, -, hn⟩ := h ha
  exact ⟨hc, hn⟩

theorem wakeful_of_awake (h : m.isAsleep = false) : m.Wakeful := by
  intro ha
  rw [h] at ha
  cases ha

theorem isAsleep_eq_false (h : ∀ starting, m.phase ≠ .gate .asleep starting) :
    m.isAsleep = false := by
  by_contra ha
  obtain ⟨starting, hp⟩ := isAsleep_iff.1 (by simpa using ha)
  exact h starting hp

theorem isAsleep_signal (m : Machine) (s : Signal) :
    (m.signal s).isAsleep = (m.isAsleep && !s.wakes) := by
  unfold signal
  dsimp only
  split
  · next starting hp =>
    rw [isAsleep_iff.2 ⟨starting, hp⟩, Bool.true_and]
    cases s.wakes with
    | true => rfl
    | false => exact isAsleep_iff.2 ⟨starting, hp⟩
  · next hp =>
    have ha : m.isAsleep = false := isAsleep_eq_false hp
    rw [ha, Bool.false_and]
    exact ha

theorem isAsleep_stir (m : Machine) : m.stir.isAsleep = false := by
  unfold stir
  split
  · rfl
  · next hp => exact isAsleep_eq_false hp

theorem isResting_of_isAsleep (h : m.isAsleep = true) : m.isResting = true := by
  obtain ⟨starting, hp⟩ := isAsleep_iff.1 h
  simp only [isResting, hp]

/-- Who was awake before a step has a reason to sleep after it. -/
theorem wakeful_step_of_awake (h : m.isAsleep = false) : (m.step e limits).Wakeful := by
  cases hr : m.isResting with
  | true =>
    rw [step_of_isResting hr]
    exact wakeful_of_awake h
  | false => exact (turn_step hr).wakeful

theorem Unserved.step (hm : m.Unserved) : (m.step e limits).Unserved := by
  cases h : m.isAsleep with
  | true => rwa [step_of_isResting (isResting_of_isAsleep h)]
  | false => exact (wakeful_step_of_awake h).unserved

/-- Every signal but a reset leaves a sleeper with a reason to sleep, or wakes it up. -/
theorem Unserved.wakeful_signal (hm : m.Unserved) {s : Signal} (hs : s ≠ .reset) :
    (m.signal s).Wakeful := by
  intro ha
  rw [isAsleep_signal, Bool.and_eq_true] at ha
  obtain ⟨hasleep, hquiet⟩ := ha
  obtain ⟨hc, hn⟩ := hm hasleep
  rw [control_signal]
  cases s with
  | pause => exact ⟨hc, rfl, hn⟩
  | resume | step | cancel => cases hquiet
  | reset => exact absurd rfl hs

theorem Unserved.signal (hm : m.Unserved) (s : Signal) : (m.signal s).Unserved := by
  by_cases hs : s = .reset
  · intro _
    rw [control_signal, hs]
    exact ⟨rfl, rfl⟩
  · exact (hm.wakeful_signal hs).unserved

theorem Unserved.move (hm : m.Unserved) (a : Move) : (m.move e limits a).Unserved := by
  cases a with
  | step => exact hm.step
  | stir => exact (wakeful_of_awake m.isAsleep_stir).unserved
  | signal s => exact hm.signal s

theorem Unserved.moves (hm : m.Unserved) (ms : List Move) : (m.moves e limits ms).Unserved :=
  moves_keeps (fun _ a _ hk => hk.move a) hm

theorem moves_concat (m : Machine) (ms : List Move) (a : Move) :
    m.moves e limits (ms ++ [a]) = (m.moves e limits ms).move e limits a :=
  moves_append m ms [a]

theorem overslept_reset (h : m.isAsleep = true) : (m.signal .reset).Overslept := by
  refine ⟨?_, ?_⟩
  · rw [isAsleep_signal, h]
    rfl
  · rw [control_signal]
    rfl

theorem Overslept.not_wakeful (hm : m.Overslept) : ¬ m.Wakeful := by
  intro h
  have hpaused := (h hm.asleep).2.1
  rw [hm.unpaused] at hpaused
  cases hpaused

/-- Who has overslept sleeps on through steps and resets. -/
theorem Overslept.moves (hm : m.Overslept) {ms : List Move}
    (hms : ∀ a ∈ ms, a = .step ∨ a = .signal .reset) : (m.moves e limits ms).Overslept := by
  refine moves_keeps (fun k a ha hk => ?_) hm
  rcases hms a ha with rfl | rfl
  · change (k.step e limits).Overslept
    rwa [step_of_isResting (isResting_of_isAsleep hk.asleep)]
  · exact overslept_reset hk.asleep

/-- One move that leaves a machine asleep without a reason: it slept before, and the move is a reset
or it changes nothing. -/
theorem not_wakeful_move {a : Move} (hm : m.Unserved) (h : ¬ (m.move e limits a).Wakeful) :
    m.isAsleep = true ∧ (a = .signal .reset ∨ a = .step ∧ ¬ m.Wakeful) := by
  cases a with
  | step =>
    cases hs : m.isAsleep with
    | false => exact absurd (wakeful_step_of_awake hs) h
    | true =>
      refine ⟨rfl, .inr ⟨rfl, ?_⟩⟩
      change ¬ (m.step e limits).Wakeful at h
      rwa [step_of_isResting (isResting_of_isAsleep hs)] at h
  | stir => exact absurd (wakeful_of_awake m.isAsleep_stir) h
  | signal s =>
    have hs : s = .reset := by
      by_contra hs
      exact h (hm.wakeful_signal hs)
    subst hs
    refine ⟨?_, .inl rfl⟩
    by_contra ha
    have hawake : (m.signal .reset).isAsleep = false := by
      rw [isAsleep_signal, Bool.eq_false_iff.2 ha, Bool.false_and]
    exact h (wakeful_of_awake hawake)

end Machine

/-- A run is left asleep with flags that would let it go on exactly when a reset has found it
asleep and nothing but its own idle steps and further resets came after that. Every other signal
that takes away the reason to sleep wakes the sleeper. -/
theorem Executable.overslept_iff_reset (e : Executable) (limits : Limits) (w : World)
    (ms : List Move) :
    ¬ ((Machine.start w).moves e limits ms).Wakeful ↔
      ∃ before after, ms = before ++ .signal .reset :: after ∧
        ((Machine.start w).moves e limits before).isAsleep = true ∧
        ∀ a ∈ after, a = .step ∨ a = .signal .reset := by
  constructor
  · intro h
    -- The schedule is taken apart from its end, back to the latest move that was not idle.
    induction ms using List.reverseRecOn with
    | nil => exact absurd (fun ha => by cases ha) h
    | append_singleton ms a ih =>
      rw [Machine.moves_concat] at h
      have hstart : (Machine.start w).Unserved := (Machine.wakeful_of_awake rfl).unserved
      obtain ⟨hasleep, rfl | ⟨rfl, hidle⟩⟩ := Machine.not_wakeful_move (hstart.moves ms) h
      · exact ⟨ms, [], rfl, hasleep, fun _ ha => absurd ha List.not_mem_nil⟩
      · obtain ⟨before, after, rfl, hb, hafter⟩ := ih hidle
        refine ⟨before, after ++ [.step], by simp, hb, fun a ha => ?_⟩
        rcases List.mem_append.1 ha with ha | ha
        · exact hafter a ha
        · exact .inl (List.mem_singleton.1 ha)
  · rintro ⟨before, after, rfl, hb, hafter⟩
    rw [Machine.moves_append]
    exact ((Machine.overslept_reset hb).moves hafter).not_wakeful

/-- The patrol performs the one action that it is granted and falls asleep at the gate behind it.
Then its control is reset. -/
theorem Executable.patrol_overslept :
    ¬ ∀ ms : List Move, ((Machine.start .empty).moves patrol {} ms).Wakeful := by
  intro h
  have hreset := h (.signal .step :: List.replicate 20 .step ++ [.signal .reset]) rfl
  exact absurd hreset.2.1 (by decide)

end Karel
