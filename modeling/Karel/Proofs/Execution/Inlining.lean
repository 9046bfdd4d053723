import Karel.Proofs.Execution.Replacement

/-! # Inlining a call

A call does what the body of its target does, one level deeper and after one step that counts the
call. With the body in its place the level and the step are saved, so the program does the same as
before, except that it may get further within its limits. The body is the one that the target had
before, also where the call stands in the very command that it calls; inside the new piece calls are
still calls.
-/
namespace Karel

namespace Effect
variable {cut : Outcome → Prop} {r r' r'' : Effect}

theorem Agrees.trans (h : r.Agrees r') (h' : r'.Agrees r'') : r.Agrees r'' :=
  ⟨h'.ending.trans h.ending, h'.trace.trans h.trace, h'.world.trans h.world,
    Nat.le_trans h'.steps h.steps⟩

theorem Kept.trans (h : r.Kept cut r') (h' : r'.Kept cut r'') : r.Kept cut r'' := by
  rcases h with hcut | h
  · exact .inl hcut
  · rcases h' with ⟨o, ho, hcut⟩ | h'
    · exact .inl ⟨o, h.ending ▸ ho, hcut⟩
    · exact .inr (h.trans h')

end Effect

theorem Task.Agree.trans {cut : Outcome → Prop} {n : Nat} {a b c : Task} (h : Agree cut n a b)
    (h' : Agree cut n b c) : Agree cut n a c := by
  intro left left' w hn hl
  exact (h left left w hn (Nat.le_refl _)).trans (h' left left' w hn hl)

namespace Place

/-- What is true of the calls of a body is true of the calls in each of its places. -/
theorem linked_of_fill {count : Nat} {place : Place} {nodes : List Node}
    (h : ∀ node ∈ place.fill nodes, node.Linked count) : ∀ node ∈ nodes, node.Linked count := by
  induction place with
  | here before after =>
    intro node hnode
    exact h node (by simp [fill, hnode])
  | inRepeat before n inner line after ih =>
    have hrepeat := h (.repeat n (inner.fill nodes) line) (by simp [fill])
    cases hrepeat with
    | «repeat» _ _ hbody => exact ih hbody
  | inYes before c inner no line after ih =>
    have hif := h (.if c (inner.fill nodes) no line) (by simp [fill])
    cases hif with
    | «if» _ _ hyes _ => exact ih hyes
  | inNo before c yes inner line after ih =>
    have hif := h (.if c yes (inner.fill nodes) line) (by simp [fill])
    cases hif with
    | «if» _ _ _ hno => exact ih hno
  | inWhile before c inner line after ih =>
    have hwhile := h (.while c (inner.fill nodes) line) (by simp [fill])
    cases hwhile with
    | «while» _ _ hbody => exact ih hbody

end Place

namespace Executable
variable {cut : Outcome → Prop} {e e' : Executable} {limits : Limits} {i : Nat} {r : Routine}

theorem withBody_self (hr : e.routines[i]? = some r) : e.withBody i r.body = e := by
  have hroutines : (e.withBody i r.body).routines = e.routines := by
    apply List.ext_getElem?
    intro j
    rw [getElem?_withBody]
    by_cases hj : i = j
    · subst hj
      simp [hr]
    · simp [hj]
  exact congrArg (Executable.mk e.entry) hroutines

/-- With fewer calls open, or as many, calls of one executable agree. -/
theorem callsAgree_self (hcut : ∀ o : Outcome, o.OverBudget → cut o)
    (hr : e.routines[i]? = some r) (n : Nat) {d d' : Nat} (hroom : Roomier cut d d') :
    CallsAgree cut limits e e n d d' := by
  have hb : r.body = Place.fill (.here [] []) r.body := by simp [Place.fill]
  have hsame : Replaces cut limits e (e.withBody i (Place.fill (.here [] []) r.body)) r.body
      r.body := fun m _ _ _ hcalls => agree_block hcut hcalls r.body
  have hcalls := callsAgree_withBody hcut hr hb hsame n hroom
  rwa [← hb, withBody_self hr] at hcalls

theorem replaces_inlined (hover : ∀ o : Outcome, o.OverBudget → cut o)
    (hdeep : ∀ o : Outcome, o.TooDeep → cut o) {target : Nat} {s : Routine}
    (hs : e.routines[target]? = some s) (line : Nat) :
    Replaces cut limits e e' [.call target line] s.body := by
  intro n d d' hroom hcalls
  rw [evalBlock_cons, evalBlock_nil, Task.seq_skip, evalNode_eq]
  -- The first side counts the call and then opens it.
  refine .untick hover fun m hm => ?_
  simp only [nodeTask, callTask, hs]
  by_cases hd : limits.depth ≤ d
  · rw [if_pos hd]
    exact fun _ _ w _ _ => .inl ⟨_, rfl, hdeep _ ⟨line, s.name, limits.depth, rfl⟩⟩
  · rw [if_neg hd]
    -- The body one level higher first, and there in the other executable.
    have hlevel : Roomier cut (d + 1) d := .inr ⟨Nat.le_succ d, hdeep⟩
    have hself : CallsAgree cut limits e e m (d + 1) d := callsAgree_self hover hs m hlevel
    have hlift := agree_block hover hself s.body
    exact hlift.trans ((agree_block hover hcalls s.body).mono (Nat.le_of_lt hm))

/-- Inlining a call does not change what a run does. Wherever in a compiled program the call stands,
its target is there, and a run that lacks neither steps nor room for calls has the same outcome, the
same actions with their worlds and the same world at the end as the run of the program in which the
body of the target stands in place of the call. -/
theorem inlined_run_agrees {p : Program} {requested : Option String} {e : Executable}
    (h : p.compile requested = .ok e) {i : Nat} {r : Routine} (hr : e.routines[i]? = some r)
    {place : Place} {target line : Nat} (hb : r.body = place.fill [.call target line])
    (limits : Limits) (w : World) :
    ∃ callee : Routine, e.routines[target]? = some callee ∧
      ∃ s : Report, (e.run limits w).report? = some s ∧
        (¬ s.outcome.OverBudget → ¬ s.outcome.TooDeep →
          ∃ s' : Report,
            ((e.withBody i (place.fill callee.body)).run limits w).report? = some s' ∧
              s.Agrees s') := by
  have hlinked := (Program.linked_of_compile h).bodies r (List.mem_of_getElem? hr)
  rw [hb] at hlinked
  have hcall := Place.linked_of_fill hlinked (.call target line) List.mem_cons_self
  cases hcall with
  | call _ htarget =>
    have hcallee := List.getElem?_eq_getElem htarget
    obtain ⟨s, hs⟩ := exists_report?_run h limits w
    refine ⟨_, hcallee, s, hs, fun hover hdeep => ?_⟩
    have hnew : Replaces (fun o => o.OverBudget ∨ o.TooDeep) limits e
        (e.withBody i (place.fill e.routines[target].body)) [.call target line]
        e.routines[target].body :=
      replaces_inlined (fun _ => .inl) (fun _ => .inr) hcallee line
    have hkept := kept_fate_withBody (fun _ => .inl) hr hb hnew w
    rw [report?_run] at hs ⊢
    exact (hkept.report? hs).resolve_left fun hcut => hcut.elim hover hdeep

end Executable

/-- A command that picks a beeper up and looks again by calling itself. -/
def Program.collector : Program where
  commands :=
    [⟨"main",
      [.if (.query .onBeeper ⟨2, 7⟩) [.call "pickBeeper" ⟨3, 5⟩, .call "main" ⟨4, 5⟩] ⟨2, 3⟩],
      ⟨1, 1⟩⟩]

/-- The place of the call in it. -/
def Place.collector : Place :=
  .inYes [] (.query .onBeeper ⟨2, 7⟩) (.here [.action .pickBeeper 3] []) [] 2 []

namespace Executable

def collector (nodes : List Node) : Executable where
  entry := 0
  routines := [⟨"main", Place.collector.fill nodes, 1⟩]

/-- With one beeper two calls are open at the end, and one once the call has been replaced by the
body around it. -/
theorem collector_inlined_run_agrees :
    let w : World := ⟨World.empty.pose, .insert .empty ⟨0, 9⟩, .empty⟩
    let body := Place.collector.fill [.call 0 4]
    Program.collector.compile none = .ok (collector [.call 0 4]) ∧
      ∃ s s' : Report,
        ((collector [.call 0 4]).run ⟨20, 2⟩ w).report? = some s ∧ s.outcome = .completed ∧
        s.trace.length = 1 ∧ ((collector body).run ⟨20, 2⟩ w).report? = some s' ∧
        s.Agrees s' := by
  intro w body
  have h : Program.collector.compile none = .ok (collector [.call 0 4]) := rfl
  have hr : (collector [.call 0 4]).routines[0]? = some ⟨"main", body, 1⟩ := rfl
  obtain ⟨callee, hcallee, s, hs, hagrees⟩ := inlined_run_agrees h hr rfl ⟨20, 2⟩ w
  cases hcallee
  have hend : ((collector [.call 0 4]).run ⟨20, 2⟩ w).report?.map
      (fun r => (r.outcome, r.trace.length)) = some (.completed, 1) := by cbv
  rw [hs] at hend
  obtain ⟨ho, ht⟩ := Prod.mk.inj (Option.some.inj hend)
  obtain ⟨s', hs', heq⟩ := hagrees (by rintro ⟨_, _, hf⟩; cases ho.symm.trans hf)
    (by rintro ⟨_, _, _, hf⟩; cases ho.symm.trans hf)
  exact ⟨h, s, s', hs, ho, ht, hs', heq⟩

end Executable

end Karel
