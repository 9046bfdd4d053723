import Karel.Proofs.Execution.Limits

/-! # Programs that do the same

Two pieces of programs agree if the second does what the first does and counts no more steps for it.
It may have more steps left than the first, and nothing is said about what the first does not bring
to an end, because it lacks steps or for another reason that cuts it short.

Agreement is a property of tasks for a number of steps. A sequence keeps it, a test and a loop keep
it, and a step that counts raises the number by one. That is what carries it through the recursion
of calls: the body of a command agrees up to some number if calls agree below that number. What
agrees in one place of a program thus makes the whole programs agree.
-/
namespace Karel
namespace Effect

/-- The same actions, world and ending after no more steps. -/
structure Agrees (r r' : Effect) : Prop where
  ending : r'.ending = r.ending
  trace : r'.trace = r.trace
  world : r'.world = r.world
  steps : r'.steps ≤ r.steps

/-- The end is an outcome that cuts a run short. -/
def IsCut (cut : Outcome → Prop) (r : Effect) : Prop := ∃ o, r.ending = .stopped o ∧ cut o

/-- The second effect agrees with the first, unless that is cut short. -/
def Kept (cut : Outcome → Prop) (r r' : Effect) : Prop := r.IsCut cut ∨ r.Agrees r'

variable {cut : Outcome → Prop} {r r' s s' : Effect}

theorem Agrees.refl (r : Effect) : r.Agrees r := ⟨rfl, rfl, rfl, Nat.le_refl _⟩

theorem Kept.refl (r : Effect) : r.Kept cut r := .inr (.refl r)

theorem andThen_of_done (h : r.ending = .done) (next : Effect) :
    r.andThen next = ⟨next.ending, r.steps + next.steps, r.trace ++ next.trace, next.world⟩ := by
  simp only [andThen, h]

theorem andThen_of_not_done (h : r.ending ≠ .done) (next : Effect) : r.andThen next = r := by
  unfold andThen
  split
  · next hd => exact absurd hd h
  · rfl

theorem Agrees.andThen (hr : r.Agrees r') (hs : s.Agrees s') :
    (r.andThen s).Agrees (r'.andThen s') := by
  by_cases hd : r.ending = .done
  · rw [andThen_of_done hd, andThen_of_done (hr.ending.trans hd)]
    refine ⟨hs.ending, ?_, hs.world, Nat.add_le_add hr.steps hs.steps⟩
    rw [hr.trace, hs.trace]
  · rw [andThen_of_not_done hd, andThen_of_not_done (hr.ending ▸ hd)]
    exact hr

/-- Effects agree one after the other; the second ones need to do so only if they come about. -/
theorem Kept.andThen (hr : r.Kept cut r')
    (hs : r.Agrees r' → r.ending = .done → s.Kept cut s') :
    (r.andThen s).Kept cut (r'.andThen s') := by
  rcases hr with ⟨o, ho, hcut⟩ | hr
  · left
    rw [andThen_of_not_done (by rw [ho]; nofun)]
    exact ⟨o, ho, hcut⟩
  · by_cases hd : r.ending = .done
    · rcases hs hr hd with ⟨o, ho, hcut⟩ | hs
      · left
        rw [andThen_of_done hd]
        exact ⟨o, ho, hcut⟩
      · exact .inr (hr.andThen hs)
    · right
      rw [andThen_of_not_done hd, andThen_of_not_done (hr.ending ▸ hd)]
      exact hr

/-- Steps that only the first one counts do not matter. -/
theorem Kept.counted_andThen (n : Nat) (w : World) (hr : r.Kept cut r') :
    ((counted n w).andThen r).Kept cut r' := by
  rw [Effect.counted_andThen]
  rcases hr with ⟨o, ho, hcut⟩ | hr
  · exact .inl ⟨o, ho, hcut⟩
  · exact .inr ⟨hr.ending, hr.trace, hr.world, Nat.le_add_left_of_le hr.steps⟩

theorem isCut_overBudget (hcut : ∀ o : Outcome, o.OverBudget → cut o) (steps : Nat) (w : World)
    (line budget : Nat) : (failed steps w line (.budgetExceeded budget)).IsCut cut :=
  ⟨_, rfl, hcut _ ⟨line, budget, rfl⟩⟩

end Effect

namespace Task

/-- With up to `n` steps left, the second task agrees with the first. -/
def Agree (cut : Outcome → Prop) (n : Nat) (t t' : Task) : Prop :=
  ∀ left left' w, left ≤ n → left ≤ left' → (t left w).Kept cut (t' left' w)

variable {cut : Outcome → Prop} {limits : Limits} {n m : Nat} {a a' b b' : Task}

theorem Agree.mono (h : Agree cut n a a') (hm : m ≤ n) : Agree cut m a a' :=
  fun left left' w hn hl => h left left' w (Nat.le_trans hn hm) hl

theorem agree_of_const (f : World → Effect) : Agree cut n (fun _ w => f w) fun _ w => f w :=
  fun _ _ w _ _ => .refl (f w)

theorem Agree.seq (ha : Agree cut n a a') (hb : Agree cut n b b') :
    Agree cut n (a.seq b) (a'.seq b') := by
  intro left left' w hn hl
  refine (ha left left' w hn hl).andThen fun hr _ => ?_
  -- `a'` has counted no more steps than `a`, so it leaves no fewer to what follows.
  have hsteps := hr.steps
  rw [hr.world]
  exact hb _ _ _ (by omega) (by omega)

theorem Agree.tick_seq (hcut : ∀ o : Outcome, o.OverBudget → cut o) {line : Nat}
    (h : ∀ m < n, Agree cut m a a') :
    Agree cut n ((tick limits line).seq a) ((tick limits line).seq a') := by
  intro left left' w hn hl
  cases left with
  | zero => exact .inl (Effect.isCut_overBudget hcut _ _ _ _)
  | succ left =>
    obtain ⟨left', rfl⟩ : ∃ k, left' = k + 1 := ⟨left' - 1, by omega⟩
    rw [tick_seq_succ, tick_seq_succ]
    refine (Effect.Kept.refl (.counted 1 w)).andThen fun _ _ => ?_
    exact h left hn left left' w (Nat.le_refl _) (by omega)

/-- What comes after a step that counts agrees with the whole. -/
theorem Agree.untick (hcut : ∀ o : Outcome, o.OverBudget → cut o) {line : Nat}
    (h : ∀ m < n, Agree cut m a a') : Agree cut n ((tick limits line).seq a) a' := by
  intro left left' w hn hl
  cases left with
  | zero => exact .inl (Effect.isCut_overBudget hcut _ _ _ _)
  | succ left =>
    rw [tick_seq_succ]
    exact (h left hn left left' w (Nat.le_refl _) (by omega)).counted_andThen 1 w

theorem Agree.test (hcut : ∀ o : Outcome, o.OverBudget → cut o) {c : Condition} {line : Nat}
    (hyes : ∀ m < n, Agree cut m a a') (hno : ∀ m < n, Agree cut m b b') :
    Agree cut n (test limits c line a b) (test limits c line a' b') := by
  intro left left' w hn hl
  -- A condition asks at least one query, so that its branches have fewer steps left.
  have hpos := c.queries_pos w
  unfold Task.test
  by_cases hq : left < c.queries w
  · rw [if_pos hq]
    exact .inl (Effect.isCut_overBudget hcut _ _ _ _)
  · have hq' : ¬ left' < c.queries w := by omega
    rw [if_neg hq, if_neg hq']
    refine (Effect.Kept.refl (.counted _ w)).andThen fun _ _ => ?_
    have hlt : left - c.queries w < n := by omega
    cases c.holds w with
    | true => exact hyes _ hlt _ _ w (Nat.le_refl _) (by omega)
    | false => exact hno _ hlt _ _ w (Nat.le_refl _) (by omega)

end Task

/-! ## Nodes and blocks -/

namespace Executable
variable {cut : Outcome → Prop} {e e' : Executable} {limits : Limits} {n d d' : Nat}

theorem evalBlock_append (e : Executable) (limits : Limits) (d : Nat) (xs ys : List Node) :
    evalBlock e limits d (xs ++ ys) =
      Task.seq (evalBlock e limits d xs) (evalBlock e limits d ys) := by
  induction xs with
  | nil => rw [List.nil_append, evalBlock_nil, Task.skip_seq]
  | cons node xs ih => rw [List.cons_append, evalBlock_cons, evalBlock_cons, ih, Task.seq_assoc]

theorem agree_append {xs xs' ys ys' : List Node}
    (hx : Task.Agree cut n (evalBlock e limits d xs) (evalBlock e' limits d' xs'))
    (hy : Task.Agree cut n (evalBlock e limits d ys) (evalBlock e' limits d' ys')) :
    Task.Agree cut n (evalBlock e limits d (xs ++ ys)) (evalBlock e' limits d' (xs' ++ ys')) := by
  rw [evalBlock_append, evalBlock_append]
  exact hx.seq hy

theorem agree_cons {node node' : Node} {nodes nodes' : List Node}
    (hnode : Task.Agree cut n (evalNode e limits d node) (evalNode e' limits d' node'))
    (hnodes : Task.Agree cut n (evalBlock e limits d nodes) (evalBlock e' limits d' nodes')) :
    Task.Agree cut n (evalBlock e limits d (node :: nodes))
      (evalBlock e' limits d' (node' :: nodes')) := by
  rw [evalBlock_cons, evalBlock_cons]
  exact hnode.seq hnodes

theorem agree_evalRepeat {body body' : List Node}
    (h : Task.Agree cut n (evalBlock e limits d body) (evalBlock e' limits d' body'))
    (count : Nat) :
    Task.Agree cut n (evalRepeat e limits d body count) (evalRepeat e' limits d' body' count) := by
  induction count with
  | zero =>
    rw [evalRepeat_zero, evalRepeat_zero]
    exact Task.agree_of_const _
  | succ count ih =>
    rw [evalRepeat_succ, evalRepeat_succ]
    exact h.seq ih

theorem agree_evalWhile (hcut : ∀ o : Outcome, o.OverBudget → cut o) {body body' : List Node}
    (c : Condition) (line : Nat)
    (h : Task.Agree cut n (evalBlock e limits d body) (evalBlock e' limits d' body')) :
    Task.Agree cut n (evalWhile e limits d c body line) (evalWhile e' limits d' c body' line) := by
  -- The induction is on the steps: the loop comes back to its test with fewer of them.
  induction n using Nat.strongRecOn with
  | ind n ih =>
    rw [evalWhile_eq e, evalWhile_eq e']
    refine Task.Agree.test hcut (fun m hm => ?_) fun m _ => Task.agree_of_const _
    have hbody := h.mono (Nat.le_of_lt hm)
    exact hbody.seq (ih m hm hbody)

section
variable (hcut : ∀ o : Outcome, o.OverBudget → cut o)
include hcut

theorem agree_repeat {body body' : List Node} (count line : Nat)
    (h : Task.Agree cut n (evalBlock e limits d body) (evalBlock e' limits d' body')) :
    Task.Agree cut n (evalNode e limits d (.repeat count body line))
      (evalNode e' limits d' (.repeat count body' line)) := by
  rw [evalNode_eq, evalNode_eq]
  exact .tick_seq hcut fun m hm => agree_evalRepeat (h.mono (Nat.le_of_lt hm)) count

theorem agree_if {yes yes' no no' : List Node} (c : Condition) (line : Nat)
    (hyes : Task.Agree cut n (evalBlock e limits d yes) (evalBlock e' limits d' yes'))
    (hno : Task.Agree cut n (evalBlock e limits d no) (evalBlock e' limits d' no')) :
    Task.Agree cut n (evalNode e limits d (.if c yes no line))
      (evalNode e' limits d' (.if c yes' no' line)) := by
  rw [evalNode_eq, evalNode_eq]
  refine .tick_seq hcut fun m hm => .test hcut (fun k hk => ?_) fun k hk => ?_
  · exact hyes.mono (by omega)
  · exact hno.mono (by omega)

theorem agree_while {body body' : List Node} (c : Condition) (line : Nat)
    (h : Task.Agree cut n (evalBlock e limits d body) (evalBlock e' limits d' body')) :
    Task.Agree cut n (evalNode e limits d (.while c body line))
      (evalNode e' limits d' (.while c body' line)) := by
  rw [evalNode_eq, evalNode_eq]
  exact .tick_seq hcut fun m hm => agree_evalWhile hcut c line (h.mono (Nat.le_of_lt hm))

end

/-- Calls agree as long as fewer than `n` steps are left. -/
def CallsAgree (cut : Outcome → Prop) (limits : Limits) (e e' : Executable) (n d d' : Nat) : Prop :=
  ∀ m < n, ∀ target line,
    Task.Agree cut m (e.callTask limits d target line) (e'.callTask limits d' target line)

mutual

theorem agree_node (hcut : ∀ o : Outcome, o.OverBudget → cut o)
    (hcalls : CallsAgree cut limits e e' n d d') : ∀ node : Node,
    Task.Agree cut n (evalNode e limits d node) (evalNode e' limits d' node)
  | .action p line => by
    rw [evalNode_eq, evalNode_eq]
    exact .tick_seq hcut fun m _ => Task.agree_of_const _
  | .call target line => by
    rw [evalNode_eq, evalNode_eq]
    exact .tick_seq hcut fun m hm => hcalls m hm target line
  | .repeat count body line => agree_repeat hcut count line (agree_block hcut hcalls body)
  | .if c yes no line =>
    agree_if hcut c line (agree_block hcut hcalls yes) (agree_block hcut hcalls no)
  | .while c body line => agree_while hcut c line (agree_block hcut hcalls body)

theorem agree_block (hcut : ∀ o : Outcome, o.OverBudget → cut o)
    (hcalls : CallsAgree cut limits e e' n d d') : ∀ nodes : List Node,
    Task.Agree cut n (evalBlock e limits d nodes) (evalBlock e' limits d' nodes)
  | [] => by
    rw [evalBlock_nil, evalBlock_nil]
    exact Task.agree_of_const _
  | node :: nodes => agree_cons (agree_node hcut hcalls node) (agree_block hcut hcalls nodes)

end

end Executable

end Karel
