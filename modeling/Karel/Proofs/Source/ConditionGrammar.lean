import Karel.Proofs.Source.Grammar
import Karel.Proofs.Source.Unread

/-! # The readers of conditions follow the grammar

A chain is read from the left, so what its reader does after an operator is told from the part that
has been read: the tokens of the tail go behind those of that part.
-/
namespace Karel
namespace Reader

open Cursor Grammar

theorem operand_succ (n : Nat) : operand (n + 1) = operandWith (operand n) (condition n) := by
  rw [operand, condition, conjunction]
  simp only [bind_assoc]

theorem conjunctionTail_succ (n : Nat) (l : Condition) :
    conjunctionTail (n + 1) l =
      tailWith .andAnd l (do let r ← operand n; conjunctionTail n (.and l r)) := by
  rw [conjunctionTail]

theorem conditionTail_succ (n : Nat) (l : Condition) :
    conditionTail (n + 1) l =
      tailWith .orOr l (do let r ← conjunction n; conditionTail n (.or l r)) := by
  rw [conditionTail, conjunction]
  simp only [bind_assoc]

theorem tailWith_done {operator : Symbol} {l : Condition} {more : Reader Condition} {d : Cursor}
    (hd : d.kind ≠ .symbol operator) : tailWith operator l more d = .ok (l, d) := by
  unfold tailWith
  rw [peek_bind, if_neg hd]
  rfl

theorem tailWith_push (operator : Symbol) (l : Condition) (more : Reader Condition) (p : Position)
    (d : Cursor) : tailWith operator l more (push ⟨.symbol operator, p⟩ d) = more d := by
  unfold tailWith
  rw [peek_bind, kind_push, if_pos rfl]
  rfl

theorem conjunctionTail_done {n : Nat} {l : Condition} {d : Cursor}
    (hd : d.kind ≠ .symbol .andAnd) : conjunctionTail n l d = .ok (l, d) := by
  cases n with
  | zero =>
    rw [conjunctionTail]
    exact tailWith_done hd
  | succ n =>
    rw [conjunctionTail_succ]
    exact tailWith_done hd

theorem conditionTail_done {n : Nat} {l : Condition} {d : Cursor}
    (hd : d.kind ≠ .symbol .orOr) : conditionTail n l d = .ok (l, d) := by
  cases n with
  | zero =>
    rw [conditionTail]
    exact tailWith_done hd
  | succ n =>
    rw [conditionTail_succ]
    exact tailWith_done hd

theorem query_push {name : String} {q : Query} (hq : Query.ofName? name = some q)
    (p p₁ p₂ : Position) (d : Cursor) :
    query name (push ⟨.ident name, p⟩ (push ⟨.symbol .openParen, p₁⟩
      (push ⟨.symbol .closeParen, p₂⟩ d))) = .ok (.query q p, d) := by
  unfold query
  rw [hq]
  simp only [position_bind, advance_bind, advance_push, symbol_bind]
  rfl

theorem operandWith_ident (negated grouped : Reader Condition) (name : String) (p : Position)
    (d : Cursor) :
    operandWith negated grouped (push ⟨.ident name, p⟩ d) = query name (push ⟨.ident name, p⟩ d) :=
  rfl

theorem operand_query {n : Nat} (name : String) (p : Position) (d : Cursor) :
    operand n (push ⟨.ident name, p⟩ d) = query name (push ⟨.ident name, p⟩ d) := by
  cases n with
  | zero => rw [operand, operandWith_ident]
  | succ n => rw [operand_succ, operandWith_ident]

mutual

theorem read_operand {n : Nat} {ts : List Token} {c : Condition} (h : IsOperand n ts c)
    (d : Cursor) : operand n (unread ts d) = .ok (c, d) := by
  match h with
  | .query hq p p₁ p₂ =>
    simp only [unread_cons, unread_nil]
    rw [operand_query, query_push hq]
  | .not p h =>
    have hr := read_operand h d
    rw [operand_succ]
    change (operand _ >>= fun a => pure (Condition.not a)) (unread _ d) = _
    rw [bind_of_ok hr]
    rfl
  | @IsOperand.group _ _ ts _ p p₁ h =>
    have hr := read_disjunction h (push ⟨.symbol .closeParen, p₁⟩ d) (by simp)
    rw [conditionTail_done (by simp)] at hr
    rw [operand_succ, unread_cons, unread_append]
    change (condition _ >>= fun a => symbol .closeParen >>= fun _ => pure a) (unread ts _) = _
    simp only [unread_cons, unread_nil]
    rw [bind_of_ok hr, symbol_bind]
    rfl

theorem read_conjunction {n left : Nat} {ts : List Token} {c : Condition}
    (h : IsConjunction n ts c left) (d : Cursor) :
    conjunction n (unread ts d) = conjunctionTail left c d := by
  match h with
  | .one h =>
    have hr := read_operand h d
    exact bind_of_ok hr
  | @IsConjunction.more _ _ _ us _ _ p hl hr =>
    have hl := read_conjunction hl (push ⟨.symbol .andAnd, p⟩ (unread us d))
    have hr := read_operand hr d
    rw [unread_append, unread_cons, hl, conjunctionTail_succ, tailWith_push]
    exact bind_of_ok hr

theorem read_disjunction {n left : Nat} {ts : List Token} {c : Condition}
    (h : IsDisjunction n ts c left) (d : Cursor) (hd : d.kind ≠ .symbol .andAnd) :
    condition n (unread ts d) = conditionTail left c d := by
  match h with
  | .one h =>
    have hr := read_conjunction h d
    rw [conjunctionTail_done hd] at hr
    exact bind_of_ok hr
  | @IsDisjunction.more _ _ _ _ us _ _ p hl hr =>
    have hl := read_disjunction hl (push ⟨.symbol .orOr, p⟩ (unread us d)) (by simp)
    have hr := read_conjunction hr d
    rw [conjunctionTail_done hd] at hr
    rw [unread_append, unread_cons, hl, conditionTail_succ, tailWith_push]
    exact bind_of_ok hr

end

/-- Every condition of the grammar is read as its tree, unless an operator follows. -/
theorem read_condition {n : Nat} {ts : List Token} {c : Condition} (h : IsCondition n ts c)
    {d : Cursor} (ha : d.kind ≠ .symbol .andAnd) (ho : d.kind ≠ .symbol .orOr) :
    condition n (unread ts d) = .ok (c, d) := by
  obtain ⟨left, h⟩ := h
  rw [read_disjunction h d ha, conditionTail_done ho]

theorem query_sound {n : Nat} {name : String} :
    (query name).SoundAt (.ident name) (IsOperand n) := by
  unfold query
  split
  · rename_i q hq
    refine position_advance_sound (by simp) fun p => ?_
    refine symbol_sound (symbol_sound (pure_sound ?_))
    intro p₂ p₁
    exact .query hq p p₁ p₂
  · exact fail_sound _ _

theorem operandWith_sound {n : Nat} {negated grouped : Reader Condition}
    (hn : negated.Sound fun ts a => ∀ p, IsOperand n (⟨.symbol .bang, p⟩ :: ts) (.not a))
    (hg : grouped.Sound fun ts a => ∀ p p₁,
      IsOperand n (⟨.symbol .openParen, p⟩ :: (ts ++ [⟨.symbol .closeParen, p₁⟩])) a) :
    (operandWith negated grouped).Sound (IsOperand n) := by
  refine peek_sound fun k => ?_
  split
  · refine advance_sound (by simp) (hn.bind fun a => pure_sound ?_)
    intro ts h p
    rw [List.append_nil]
    exact h p
  · refine advance_sound (by simp) (hg.bind fun a => symbol_sound (pure_sound ?_))
    intro p₁ ts h p
    exact h p p₁
  · exact query_sound
  · exact fail_sound _ _
  · exact missing_sound _ _

/-- What the rest of a chain adds to the part of it that has been read. -/
def Extends (Chain : Nat → List Token → Condition → Nat → Prop) (n : Nat) (l : Condition)
    (ts : List Token) (a : Condition) : Prop :=
  ∀ levels pre, Chain levels pre l n → ∃ left, Chain levels (pre ++ ts) a left

theorem tailWith_sound {Chain : Nat → List Token → Condition → Nat → Prop} {operator : Symbol}
    {n : Nat} {l : Condition} {more : Reader Condition}
    (hm : more.Sound fun ts a => ∀ p, Extends Chain n l (⟨.symbol operator, p⟩ :: ts) a) :
    (tailWith operator l more).Sound (Extends Chain n l) := by
  refine peek_sound fun k => ?_
  split
  · rename_i hk
    subst hk
    exact advance_sound (by simp) hm
  · refine pure_sound ?_ k
    intro levels pre hl
    rw [List.append_nil]
    exact ⟨n, hl⟩

theorem conjunction_sound {n : Nat} (ho : (operand n).Sound (IsOperand n))
    (ht : ∀ l, (conjunctionTail n l).Sound (Extends IsConjunction n l)) :
    (conjunction n).Sound fun ts a => ∃ left, IsConjunction n ts a left := by
  refine ho.bind fun l => (ht l).mono ?_
  intro us a hext ts hop
  exact hext n ts (.one hop)

theorem condition_sound_of {n : Nat}
    (hj : (conjunction n).Sound fun ts a => ∃ left, IsConjunction n ts a left)
    (ht : ∀ l, (conditionTail n l).Sound (Extends IsDisjunction n l)) :
    (condition n).Sound (IsCondition n) := by
  refine hj.bind fun l => (ht l).mono ?_
  rintro us a hext ts ⟨left, hl⟩
  exact hext n ts (.one hl)

theorem conjunctionTail_sound {n : Nat} (ho : (operand n).Sound (IsOperand n))
    (ht : ∀ l, (conjunctionTail n l).Sound (Extends IsConjunction n l)) (l : Condition) :
    (conjunctionTail (n + 1) l).Sound (Extends IsConjunction (n + 1) l) := by
  rw [conjunctionTail_succ]
  refine tailWith_sound (ho.bind fun r => (ht _).mono ?_)
  intro us a hext ts hop p levels pre hl
  have hmore := hext levels _ (.more p hl hop)
  rwa [List.append_assoc, List.cons_append] at hmore

theorem conditionTail_sound {n : Nat}
    (hj : (conjunction n).Sound fun ts a => ∃ left, IsConjunction n ts a left)
    (ht : ∀ l, (conditionTail n l).Sound (Extends IsDisjunction n l)) (l : Condition) :
    (conditionTail (n + 1) l).Sound (Extends IsDisjunction (n + 1) l) := by
  rw [conditionTail_succ]
  refine tailWith_sound (hj.bind fun r => (ht _).mono ?_)
  rintro us a hext ts ⟨left, hr⟩ p levels pre hl
  have hmore := hext levels _ (.more p hl hr)
  rwa [List.append_assoc, List.cons_append] at hmore

theorem levels_sound (n : Nat) :
    (operand n).Sound (IsOperand n) ∧
      (∀ l, (conjunctionTail n l).Sound (Extends IsConjunction n l)) ∧
      ∀ l, (conditionTail n l).Sound (Extends IsDisjunction n l) := by
  induction n with
  | zero =>
    refine ⟨?_, fun l => ?_, fun l => ?_⟩
    · rw [operand]
      exact operandWith_sound (fail_sound _) (fail_sound _)
    · rw [conjunctionTail]
      exact tailWith_sound (fail_sound _)
    · rw [conditionTail]
      exact tailWith_sound (fail_sound _)
  | succ n ih =>
    obtain ⟨ho, hj, hd⟩ := ih
    have hconj := conjunction_sound ho hj
    have hcond := condition_sound_of hconj hd
    refine ⟨?_, conjunctionTail_sound ho hj, conditionTail_sound hconj hd⟩
    rw [operand_succ]
    refine operandWith_sound (ho.mono ?_) (hcond.mono ?_)
    · intro ts a h p
      exact .not p h
    · rintro ts a ⟨left, h⟩ p p₁
      exact .group p p₁ h

/-- Whatever is read as a condition is one of the grammar. -/
theorem condition_sound (n : Nat) : (condition n).Sound (IsCondition n) := by
  obtain ⟨ho, hj, hd⟩ := levels_sound n
  exact condition_sound_of (conjunction_sound ho hj) hd

end Reader
end Karel
