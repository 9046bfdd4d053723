import Karel.Proofs.Execution.Agreement

/-! # Replacing a piece of a program

A `Place` is a place inside the body of a command, however deep in its loops and branches, and
filling it with nodes gives the body. So a piece of a program is what fills some place of some body,
and replacing it means to fill the same place with something else. If the new piece agrees with the
old one wherever calls agree, then the whole programs agree, though a run may come to the place any
number of times and the two runs count their steps differently from then on.
-/
namespace Karel

/-- A place in a block: what stands before it and after it, and what it is inside of. -/
inductive Place where
  | here (before after : List Node)
  | inRepeat (before : List Node) (count : Nat) (inner : Place) (line : Nat) (after : List Node)
  | inYes (before : List Node) (c : Condition) (inner : Place) (no : List Node) (line : Nat)
      (after : List Node)
  | inNo (before : List Node) (c : Condition) (yes : List Node) (inner : Place) (line : Nat)
      (after : List Node)
  | inWhile (before : List Node) (c : Condition) (inner : Place) (line : Nat) (after : List Node)

/-- The block that has the given nodes in a place. -/
def Place.fill : Place → List Node → List Node
  | .here before after, nodes => before ++ (nodes ++ after)
  | .inRepeat before count inner line after, nodes =>
    before ++ .repeat count (inner.fill nodes) line :: after
  | .inYes before c inner no line after, nodes =>
    before ++ .if c (inner.fill nodes) no line :: after
  | .inNo before c yes inner line after, nodes =>
    before ++ .if c yes (inner.fill nodes) line :: after
  | .inWhile before c inner line after, nodes =>
    before ++ .while c (inner.fill nodes) line :: after

namespace Executable

/-- The executable in which one routine has another body. -/
def withBody (e : Executable) (i : Nat) (body : List Node) : Executable :=
  { e with routines := e.routines.modify i fun r => { r with body } }

theorem getElem?_withBody (e : Executable) (i : Nat) (body : List Node) (j : Nat) :
    (e.withBody i body).routines[j]? =
      e.routines[j]?.map fun r => if i = j then { r with body } else r := by
  rw [withBody, List.getElem?_modify]
  split <;> simp

variable {cut : Outcome → Prop} {e e' : Executable} {limits : Limits} {n d d' : Nat}

theorem agree_fill (hcut : ∀ o : Outcome, o.OverBudget → cut o)
    (hcalls : CallsAgree cut limits e e' n d d') {nodes nodes' : List Node}
    (h : Task.Agree cut n (evalBlock e limits d nodes) (evalBlock e' limits d' nodes'))
    (place : Place) :
    Task.Agree cut n (evalBlock e limits d (place.fill nodes))
      (evalBlock e' limits d' (place.fill nodes')) := by
  have hself := agree_block hcut hcalls
  induction place with
  | here before after => exact agree_append (hself before) (agree_append h (hself after))
  | inRepeat before count inner line after ih =>
    exact agree_append (hself before) (agree_cons (agree_repeat hcut count line ih) (hself after))
  | inYes before c inner no line after ih =>
    exact agree_append (hself before)
      (agree_cons (agree_if hcut c line ih (hself no)) (hself after))
  | inNo before c yes inner line after ih =>
    exact agree_append (hself before)
      (agree_cons (agree_if hcut c line (hself yes) ih) (hself after))
  | inWhile before c inner line after ih =>
    exact agree_append (hself before) (agree_cons (agree_while hcut c line ih) (hself after))

/-- So many open calls instead of others: just as many, or fewer where a run that gets too deep is
one that is cut short. -/
def Roomier (cut : Outcome → Prop) (d d' : Nat) : Prop :=
  d' = d ∨ d' ≤ d ∧ ∀ o : Outcome, o.TooDeep → cut o

theorem Roomier.succ (h : Roomier cut d d') : Roomier cut (d + 1) (d' + 1) := by
  rcases h with rfl | ⟨hle, hdeep⟩
  · exact .inl rfl
  · exact .inr ⟨Nat.succ_le_succ hle, hdeep⟩

theorem Roomier.le (h : Roomier cut d d') : d' ≤ d := by
  rcases h with rfl | ⟨hle, -⟩
  · exact Nat.le_refl _
  · exact hle

theorem agree_tooDeep (h : Roomier cut d d') {r r' : Routine} (hn : r'.name = r.name) (line : Nat)
    {body' : List Node} (hd : limits.depth ≤ d) :
    Task.Agree cut n (fun _ w => .failed 0 w line (.depthExceeded r.name limits.depth))
      (if limits.depth ≤ d' then fun _ w => .failed 0 w line (.depthExceeded r'.name limits.depth)
        else evalBlock e' limits (d' + 1) body') := by
  rcases h with rfl | ⟨-, hdeep⟩
  · rw [if_pos hd, hn]
    exact Task.agree_of_const _
  · -- With fewer calls open the second run may go on, but the first is cut short here.
    exact fun _ _ w _ _ => .inl ⟨_, rfl, hdeep _ ⟨line, r.name, limits.depth, rfl⟩⟩

theorem agree_callTask (hroom : Roomier cut d d') {r r' : Routine} {target : Nat} (line : Nat)
    (hr : e.routines[target]? = some r) (hr' : e'.routines[target]? = some r')
    (hn : r'.name = r.name)
    (hbody : Task.Agree cut n (evalBlock e limits (d + 1) r.body)
      (evalBlock e' limits (d' + 1) r'.body)) :
    Task.Agree cut n (e.callTask limits d target line) (e'.callTask limits d' target line) := by
  simp only [callTask, hr, hr']
  by_cases hd : limits.depth ≤ d
  · rw [if_pos hd]
    exact agree_tooDeep hroom hn line hd
  · have hd' : ¬ limits.depth ≤ d' := fun h => hd (Nat.le_trans h hroom.le)
    rw [if_neg hd, if_neg hd']
    exact hbody

section
variable {i : Nat} {r : Routine} {place : Place} {nodes nodes' : List Node}

/-- The new nodes agree with the old ones wherever calls agree. -/
def Replaces (cut : Outcome → Prop) (limits : Limits) (e e' : Executable)
    (nodes nodes' : List Node) : Prop :=
  ∀ n d d', Roomier cut d d' → CallsAgree cut limits e e' n d d' →
    Task.Agree cut n (evalBlock e limits d nodes) (evalBlock e' limits d' nodes')

variable (hcut : ∀ o : Outcome, o.OverBudget → cut o) (hr : e.routines[i]? = some r)
  (hb : r.body = place.fill nodes)
  (hnew : Replaces cut limits e (e.withBody i (place.fill nodes')) nodes nodes')
include hcut hr hb hnew

theorem callsAgree_withBody (n : Nat) {d d' : Nat} (hroom : Roomier cut d d') :
    CallsAgree cut limits e (e.withBody i (place.fill nodes')) n d d' := by
  -- The bodies agree up to `m` steps because calls inside them agree below `m`.
  induction n generalizing d d' with
  | zero => exact fun m hm => absurd hm (Nat.not_lt_zero m)
  | succ n ih =>
    intro m hm target line
    have hcalls : CallsAgree cut limits e (e.withBody i (place.fill nodes')) m (d + 1) (d' + 1) :=
      fun k hk => ih hroom.succ k (by omega)
    have htarget := e.getElem?_withBody i (place.fill nodes') target
    cases hs : e.routines[target]? with
    | none =>
      rw [hs] at htarget
      simp only [callTask, hs, htarget, Option.map_none]
      exact Task.agree_of_const _
    | some s =>
      rw [hs, Option.map_some] at htarget
      by_cases hi : i = target
      · subst hi
        cases hr.symm.trans hs
        refine agree_callTask hroom line hs htarget (by simp) ?_
        rw [if_pos rfl, hb]
        exact agree_fill hcut hcalls (hnew m _ _ hroom.succ hcalls) place
      · rw [if_neg hi] at htarget
        exact agree_callTask hroom line hs htarget rfl (agree_block hcut hcalls s.body)

theorem kept_fate_withBody (w : World) :
    ((Machine.start w).fate e limits).Kept cut
      ((Machine.start w).fate (e.withBody i (place.fill nodes')) limits) := by
  rw [Machine.fate_start_eq_entryTask, Machine.fate_start_eq_entryTask]
  have hentry : (e.withBody i (place.fill nodes')).entryRoutine? = _ :=
    e.getElem?_withBody i (place.fill nodes') e.entry
  have hsame : e.entryRoutine? = e.routines[e.entry]? := rfl
  unfold entryTask
  rw [hentry, hsame]
  cases e.routines[e.entry]? with
  | none => exact .refl _
  | some s =>
    have hline : (if i = e.entry then { s with body := place.fill nodes' } else s).line =
        s.line := by
      split <;> rfl
    simp only [Option.map_some, hline]
    have hroom : Roomier cut 0 0 := .inl rfl
    have hcalls := callsAgree_withBody hcut hr hb hnew (limits.budget + 1) hroom
    exact hcalls limits.budget (Nat.lt_succ_self _) e.entry s.line _ _ w (Nat.le_refl _)
      (Nat.le_refl _)

end

end Executable

/-- A report of a run that does the same as another in no more steps. -/
structure Report.Agrees (r r' : Report) : Prop where
  outcome : r'.outcome = r.outcome
  trace : r'.trace = r.trace
  world : r'.world = r.world
  steps : r'.steps ≤ r.steps

theorem Effect.Kept.report? {cut : Outcome → Prop} {f f' : Effect} (h : f.Kept cut f') {r : Report}
    (hr : f.report? = some r) : cut r.outcome ∨ ∃ r', f'.report? = some r' ∧ r.Agrees r' := by
  obtain ⟨ending, steps, trace, world⟩ := f
  rcases h with ⟨o, ho, hcut⟩ | h
  · left
    cases ho
    cases hr
    exact hcut
  · right
    obtain ⟨ending', steps', trace', world'⟩ := f'
    obtain ⟨rfl, rfl, rfl, hsteps⟩ := h
    cases ending' with
    | done =>
      cases hr
      exact ⟨_, rfl, rfl, rfl, rfl, hsteps⟩
    | stopped o =>
      cases hr
      exact ⟨_, rfl, rfl, rfl, rfl, hsteps⟩
    | lost target => cases hr

end Karel
