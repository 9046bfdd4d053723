import Karel.Proofs.Execution.Replacement

/-! # Unrolling a repeat

A `repeat` does what its body does when it is written down as often as the count says. Only the step
that counts the `repeat` itself is saved. So a program in which one `repeat` is unrolled does the
same as before, wherever the `repeat` stands, except that it may get further within its budget.
-/
namespace Karel
namespace Executable

theorem evalRepeat_eq_evalBlock (e : Executable) (limits : Limits) (d : Nat) (body : List Node)
    (count : Nat) :
    evalRepeat e limits d body count =
      evalBlock e limits d (List.replicate count body).flatten := by
  induction count with
  | zero => rw [evalRepeat_zero, List.replicate_zero, List.flatten_nil, evalBlock_nil]
  | succ count ih =>
    rw [evalRepeat_succ, ih, List.replicate_succ, List.flatten_cons, evalBlock_append]

theorem replaces_unrolled {cut : Outcome → Prop} (hcut : ∀ o : Outcome, o.OverBudget → cut o)
    (limits : Limits) (e e' : Executable) (count : Nat) (body : List Node) (line : Nat) :
    Replaces cut limits e e' [.repeat count body line] (List.replicate count body).flatten := by
  intro n d d' _ hcalls
  rw [evalBlock_cons, evalBlock_nil, Task.seq_skip, evalNode_eq]
  -- The first side counts the `repeat` itself; what is left is the same on both sides.
  refine .untick hcut fun m hm => ?_
  have htask : e.nodeTask limits d (.repeat count body line) =
      evalBlock e limits d (List.replicate count body).flatten :=
    evalRepeat_eq_evalBlock e limits d body count
  rw [htask]
  exact (agree_block hcut hcalls _).mono (Nat.le_of_lt hm)

/-- Unrolling a `repeat` does not change what a run does. Wherever in a compiled program the
`repeat` stands, a run that does not lack steps has the same outcome, the same actions with their
worlds and the same world at the end as the run of the program in which the body stands in place of
the `repeat` as often as its count says. -/
theorem unrolled_run_agrees {p : Program} {requested : Option String} {e : Executable}
    (h : p.compile requested = .ok e) {i : Nat} {r : Routine} (hr : e.routines[i]? = some r)
    {place : Place} {count : Nat} {body : List Node} {line : Nat}
    (hb : r.body = place.fill [.repeat count body line]) (limits : Limits) (w : World) :
    ∃ s : Report, (e.run limits w).report? = some s ∧ (¬ s.outcome.OverBudget →
      ∃ s' : Report,
        ((e.withBody i (place.fill (List.replicate count body).flatten)).run limits w).report? =
          some s' ∧ s.Agrees s') := by
  obtain ⟨s, hs⟩ := exists_report?_run h limits w
  refine ⟨s, hs, fun hover => ?_⟩
  have hnew := replaces_unrolled (fun _ => id) limits e
    (e.withBody i (place.fill (List.replicate count body).flatten)) count body line
  have hkept := kept_fate_withBody (fun _ => id) hr hb hnew w
  rw [report?_run] at hs ⊢
  exact (hkept.report? hs).resolve_left hover

end Executable

/-- A command that calls itself behind a `repeat` in a branch. -/
def Program.pirouette : Program where
  commands :=
    [⟨"main",
      [.if (.not (.query .onBeeper ⟨2, 8⟩))
        [.repeat 2 [.call "turnLeft" ⟨4, 7⟩] ⟨3, 5⟩, .call "turnAround" ⟨6, 5⟩,
          .call "main" ⟨7, 5⟩] ⟨2, 3⟩], ⟨1, 1⟩⟩]

/-- The place of the `repeat` in it. -/
def Place.pirouette : Place :=
  .inYes [] (.not (.query .onBeeper ⟨2, 8⟩)) (.here [] [.action .turnAround 6, .call 0 7]) [] 2 []

namespace Executable

/-- The executable with the given nodes in that place. -/
def pirouette (nodes : List Node) : Executable where
  entry := 0
  routines := [⟨"main", Place.pirouette.fill nodes, 1⟩]

/-- Two rounds are danced before the calls get too deep, also when the body says `turnLeft` twice
instead of the `repeat`. -/
theorem pirouette_unrolled_run_agrees :
    Program.pirouette.compile none = .ok (pirouette [.repeat 2 [.action .turnLeft 4] 3]) ∧
      ∃ s s' : Report,
        ((pirouette [.repeat 2 [.action .turnLeft 4] 3]).run ⟨20, 2⟩ .empty).report? = some s ∧
        s.outcome = .fault ⟨7, .depthExceeded "main" 2⟩ ∧ s.trace.length = 6 ∧
        ((pirouette [.action .turnLeft 4, .action .turnLeft 4]).run ⟨20, 2⟩ .empty).report? =
          some s' ∧ s.Agrees s' := by
  have h : Program.pirouette.compile none = .ok (pirouette [.repeat 2 [.action .turnLeft 4] 3]) :=
    rfl
  have hr : (pirouette [.repeat 2 [.action .turnLeft 4] 3]).routines[0]? =
      some ⟨"main", Place.pirouette.fill [.repeat 2 [.action .turnLeft 4] 3], 1⟩ := rfl
  obtain ⟨s, hs, hagrees⟩ := unrolled_run_agrees h hr rfl ⟨20, 2⟩ .empty
  have hend : ((pirouette [.repeat 2 [.action .turnLeft 4] 3]).run ⟨20, 2⟩ .empty).report?.map
      (fun r => (r.outcome, r.trace.length)) =
        some (.fault ⟨7, .depthExceeded "main" 2⟩, 6) := by cbv
  rw [hs] at hend
  obtain ⟨ho, ht⟩ := Prod.mk.inj (Option.some.inj hend)
  have hover : ¬ s.outcome.OverBudget := by
    rintro ⟨line, budget, hfault⟩
    rw [ho] at hfault
    cases hfault
  obtain ⟨s', hs', heq⟩ := hagrees hover
  exact ⟨h, s, s', hs, ho, ht, hs', heq⟩

end Executable
end Karel
