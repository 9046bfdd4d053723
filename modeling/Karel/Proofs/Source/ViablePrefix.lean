import Karel.Proofs.Source.ProgramGrammar
import Karel.Proofs.Source.Prompt
import Mathlib.Data.List.Infix

/-! # Where reading stops

A list of tokens is viable if a program, nested as deep as it may be, can start with it. Reading
stops at the first token that makes the tokens up to it not viable, unless it stops because of the
depth of the nesting: no reader goes on over a token that has to be wrong, and none complains about
one that could be right.
-/
namespace Karel

namespace Reader

open Cursor Grammar

/-! ## Conditions -/

theorem query_promptAt (name : String) :
    (query name).PromptAt (.ident name) (query name) (Unlimited IsOperand) := by
  unfold query
  split
  · next q hq =>
    refine position_promptAt Unlimited.exists_operand fun p => ?_
    refine (advance_promptAt (by simp)).bind fun _ => (symbol_prompt _).bind fun _ =>
      (symbol_prompt _).bind fun _ => pure_prompt ?_
    rintro _ ⟨_, p₂, rfl, rfl⟩ _ ⟨_, p₁, rfl, rfl⟩ _ ⟨p', rfl⟩ hp
    obtain rfl : p' = p := hp _ rfl
    exact .query hq p' p₁ p₂
  · exact fail_promptAt Unlimited.exists_operand (by simp)

theorem operandWith_prompt {negated negated' grouped grouped' : Reader Condition}
    (hn : negated.Prompt negated' (Unlimited IsOperand))
    (hg : grouped.Prompt grouped' (Unlimited IsCondition)) :
    (operandWith negated grouped).Prompt (operandWith negated' grouped')
      (Unlimited IsOperand) := by
  refine peek_prompt Unlimited.exists_operand fun k => ?_
  split
  · refine (advance_promptAt (by simp)).bind fun _ => hn.bind fun a => pure_prompt ?_
    rintro ts hts _ ⟨p, rfl⟩
    rw [List.append_nil]
    exact hts.not p
  · refine (advance_promptAt (by simp)).bind fun _ => hg.bind fun a =>
      (symbol_prompt _).bind fun _ => pure_prompt ?_
    rintro _ ⟨_, p₁, rfl, rfl⟩ ts hts _ ⟨p, rfl⟩
    exact hts.group p p₁
  · exact query_promptAt _
  · exact fail_promptAt Unlimited.exists_operand (by simp)
  · exact missing_promptAt Unlimited.exists_operand _

/-- What the rest of a chain adds to the part of it that has been read. -/
def Continues (Chain : Nat → List Token → Condition → Prop) (l : Condition) (ts : List Token)
    (a : Condition) : Prop :=
  ∀ pre, Unlimited Chain pre l → Unlimited Chain (pre ++ ts) a

theorem tailWith_prompt {Chain : Nat → List Token → Condition → Prop} {operator : Symbol}
    {l : Condition} {more more' : Reader Condition}
    (hm : more.Prompt more' fun ts a => ∀ p, Continues Chain l (⟨.symbol operator, p⟩ :: ts) a) :
    (tailWith operator l more).Prompt (tailWith operator l more') (Continues Chain l) := by
  have hdone : Continues Chain l [] l := by
    intro pre hl
    rwa [List.append_nil]
  refine peek_prompt ⟨[], l, hdone⟩ fun k => ?_
  split
  · next hk =>
    subst hk
    refine (advance_promptAt (by simp)).bind fun _ => hm.mono ?_
    rintro ts a h _ ⟨p, rfl⟩
    exact h p
  · exact (pure_prompt hdone).promptAt k

theorem exists_and (l : Condition) :
    ∃ ts a, ∀ p, Continues IsChain l (⟨.symbol .andAnd, p⟩ :: ts) a := by
  obtain ⟨ts, r, hr⟩ := Unlimited.exists_operand
  exact ⟨ts, .and l r, fun p pre hl => hl.and p hr⟩

theorem exists_or (l : Condition) :
    ∃ ts a, ∀ p, Continues IsCondition l (⟨.symbol .orOr, p⟩ :: ts) a := by
  obtain ⟨ts, r, hr⟩ := Unlimited.exists_chain
  exact ⟨ts, .or l r, fun p pre hl => hl.or p hr⟩

/-- The readers of conditions with some levels left and with more. -/
structure LevelsPrompt (n m : Nat) : Prop where
  operand : (operand n).Prompt (operand m) (Unlimited IsOperand)
  conjunctionTail : ∀ l, (conjunctionTail n l).Prompt (conjunctionTail m l) (Continues IsChain l)
  conditionTail : ∀ l, (conditionTail n l).Prompt (conditionTail m l) (Continues IsCondition l)

theorem LevelsPrompt.conjunction {n m : Nat} (h : LevelsPrompt n m) :
    (conjunction n).Prompt (conjunction m) (Unlimited IsChain) := by
  refine h.operand.bind fun first => (h.conjunctionTail first).mono ?_
  intro us a hext ts hts
  exact hext ts hts.chain

theorem LevelsPrompt.condition {n m : Nat} (h : LevelsPrompt n m) :
    (condition n).Prompt (condition m) (Unlimited IsCondition) := by
  refine h.conjunction.bind fun first => (h.conditionTail first).mono ?_
  intro us a hext ts hts
  exact hext ts hts.condition

theorem LevelsPrompt.zero (m : Nat) : LevelsPrompt 0 m := by
  have ho := Unlimited.exists_operand
  have hc := Unlimited.exists_condition
  cases m with
  | zero =>
    exact ⟨operandWith_prompt (tooDeep_prompt ho) (tooDeep_prompt hc),
      fun l => tailWith_prompt (tooDeep_prompt (exists_and l)),
      fun l => tailWith_prompt (tooDeep_prompt (exists_or l))⟩
  | succ m =>
    exact ⟨operandWith_prompt (tooDeep_prompt ho) (tooDeep_prompt hc),
      fun l => tailWith_prompt (tooDeep_prompt (exists_and l)),
      fun l => tailWith_prompt (tooDeep_prompt (exists_or l))⟩

theorem LevelsPrompt.succ {n m : Nat} (h : LevelsPrompt n m) : LevelsPrompt (n + 1) (m + 1) := by
  constructor
  · rw [operand_succ, operand_succ]
    exact operandWith_prompt h.operand h.condition
  · intro l
    rw [conjunctionTail_succ, conjunctionTail_succ]
    refine tailWith_prompt (h.operand.bind fun r => (h.conjunctionTail _).mono ?_)
    intro us a hext ts hts p pre hl
    have hmore := hext _ (hl.and p hts)
    rwa [List.append_assoc, List.cons_append] at hmore
  · intro l
    rw [conditionTail_succ, conditionTail_succ]
    refine tailWith_prompt (h.conjunction.bind fun r => (h.conditionTail _).mono ?_)
    intro us a hext ts hts p pre hl
    have hmore := hext _ (hl.or p hts)
    rwa [List.append_assoc, List.cons_append] at hmore

theorem levelsPrompt {n m : Nat} (h : n ≤ m) : LevelsPrompt n m := by
  induction n generalizing m with
  | zero => exact .zero m
  | succ n ih =>
    obtain ⟨m, rfl⟩ := Nat.exists_eq_add_of_le' h
    exact (ih (Nat.le_add_left n m)).succ

theorem condition_prompt {n m : Nat} (h : n ≤ m) :
    (condition n).Prompt (condition m) (Unlimited IsCondition) := (levelsPrompt h).condition

/-! ## Statements -/

section Block

variable {mover deep : Mover Statement} {opening : Position}

theorem statements_prompt_ok (hm : mover.read.Prompt deep.read (Unlimited IsStatement))
    {c d : Cursor} {ss : List Statement} (hc : c.Closed)
    (h : statements mover opening c = .ok (ss, d)) :
    ∃ ts p, c = unread ts (push ⟨.symbol .closeBrace, p⟩ d) ∧ d.Closed ∧
      Unlimited IsSequence ts ss ∧
      ∀ d', statements deep opening (unread ts (push ⟨.symbol .closeBrace, p⟩ d')) =
        .ok (ss, d') := by
  fun_induction statements mover opening c generalizing ss d with
  | case1 c hk =>
    cases h
    obtain ⟨p, hp, hd⟩ := hc.advance hk (by simp)
    refine ⟨[], p, hp, hd, .nil, fun d' => ?_⟩
    rw [statements]
    rfl
  | case2 => cases h
  | case3 => cases h
  | case4 => cases h
  | case5 c s c' hread hlt ss' c'' hss hbrace heof ih =>
    cases h
    obtain ⟨ts, rfl, hc', hts, hdeep⟩ := (hm.promptAt _).ok hc rfl hread
    obtain ⟨us, p, rfl, hd, hus, hdeep'⟩ := ih hc' hss
    refine ⟨ts ++ us, p, (unread_append ts us _).symm, hd, hts.cons hus, fun d' => ?_⟩
    have hcurrent : (unread us (push ⟨.symbol .closeBrace, p⟩ d')).current =
        (unread us (push ⟨.symbol .closeBrace, p⟩ c'')).current := by
      apply current_unread
      rfl
    rw [unread_append, statements_eq_bind (by rwa [kind_unread hcurrent ts])
      (by rwa [kind_unread hcurrent ts]), bind_of_ok (hdeep _ hcurrent), bind_of_ok (hdeep' d')]
    rfl

/-- Either a statement in the block is wrong, or the block ends with the file. -/
theorem statements_prompt_error (hm : mover.read.Prompt deep.read (Unlimited IsStatement))
    {c : Cursor} {diag : Diagnostic} (hc : c.Closed) (h : statements mover opening c = .error diag)
    (hn : diag.issue ≠ .tooDeep) :
    ∃ ts d, c = unread ts d ∧
      (diag.PointsAt ts d ∨ diag = ⟨.unclosedBlock, opening⟩ ∧ d.kind = .eof ∧ Balanced ts) ∧
      (∃ us ss, Unlimited IsSequence (ts ++ us) ss) ∧
      ∀ d', d'.current = d.current →
        ∃ diag', statements deep opening (unread ts d') = .error diag' := by
  fun_induction statements mover opening c generalizing diag with
  | case1 => cases h
  | case2 c hk =>
    cases h
    refine ⟨[], c, rfl, .inr ⟨rfl, hk, fun stack => rfl⟩, ⟨[], [], .nil⟩, fun d' hd' => ?_⟩
    have hkind : d'.kind = .eof := (congrArg Token.kind hd').trans hk
    refine ⟨⟨.unclosedBlock, opening⟩, ?_⟩
    rw [unread_nil, statements, hkind]
  | case3 c diag' hread hbrace heof =>
    cases h
    obtain ⟨ts, d, rfl, hat, ⟨us, s, hs⟩, hdeep⟩ := (hm.promptAt _).error hc rfl hread hn
    refine ⟨ts, d, rfl, .inl hat, ⟨us, [s], ?_⟩, fun d' hd' => ?_⟩
    · simpa using hs.cons .nil
    · obtain ⟨diag'', he⟩ := hdeep d' hd'
      refine ⟨diag'', ?_⟩
      rw [statements_eq_bind (by rwa [kind_unread hd' ts]) (by rwa [kind_unread hd' ts])]
      exact bind_eq_error.2 (.inl he)
  | case4 c s c' hread hlt diag' herror hbrace heof ih =>
    cases h
    obtain ⟨ts, rfl, hc', hts, hdeep⟩ := (hm.promptAt _).ok hc rfl hread
    obtain ⟨us, d, rfl, hat, ⟨vs, ss, hss⟩, hdeep'⟩ := ih hc' herror hn
    refine ⟨ts ++ us, d, (unread_append ts us d).symm, ?_, ⟨vs, s :: ss, ?_⟩, fun d' hd' => ?_⟩
    · rcases hat with hat | ⟨hdiag, hd, hus⟩
      · exact .inl (hat.append ts)
      · obtain ⟨n, hts⟩ := hts
        exact .inr ⟨hdiag, hd, hts.balanced.append hus⟩
    · rw [List.append_assoc]
      exact hts.cons hss
    · obtain ⟨diag'', he⟩ := hdeep' d' hd'
      have hcurrent := current_unread hd' us
      refine ⟨diag'', ?_⟩
      rw [unread_append, statements_eq_bind (by rwa [kind_unread hcurrent ts])
        (by rwa [kind_unread hcurrent ts]), bind_of_ok (hdeep _ hcurrent)]
      exact bind_eq_error.2 (.inl he)
  | case5 => cases h

theorem braced_prompt (hm : mover.read.Prompt deep.read (Unlimited IsStatement)) :
    (braced mover).Prompt (braced deep) (Unlimited IsBlock) := by
  refine ⟨Unlimited.exists_block, fun k => ⟨?_, ?_⟩⟩
  · intro c ss d hc hk h
    rw [braced, position_bind] at h
    obtain ⟨_, e, hs, h⟩ := bind_eq_ok.1 h
    obtain ⟨hkind, rfl⟩ := symbol_eq_ok.1 hs
    obtain ⟨p, hp, he⟩ := hc.advance hkind (by simp)
    have hpos : c.position = p := by rw [hp]; rfl
    rw [hpos] at h
    obtain ⟨ts, p₁, hts, hd, hseq, hdeep⟩ := statements_prompt_ok hm he h
    refine ⟨_, ?_, hd, hseq.braces p p₁, fun d' _ => ?_⟩
    · rw [unread_cons, unread_append, unread_cons, unread_nil, ← hts]
      exact hp
    · rw [unread_cons, unread_append, unread_cons, unread_nil, braced, position_bind, symbol_bind]
      exact hdeep d'
  · intro c diag hc hk h hn
    rw [braced, position_bind] at h
    rcases bind_eq_error.1 h with h | ⟨_, e, hs, h⟩
    · obtain ⟨ts, d, rfl, hat, ⟨us, _, _, p, hus, rfl⟩, hdeep⟩ :=
        ((symbol_prompt _).promptAt k).error hc hk h hn
      refine ⟨ts, d, rfl, hat, ⟨us ++ [⟨.symbol .closeBrace, p⟩], [], ?_⟩, fun d' hd' => ?_⟩
      · rw [← List.append_assoc, hus]
        exact Unlimited.nil.braces p p
      · obtain ⟨diag', he⟩ := hdeep d' hd'
        rw [braced, position_bind]
        exact ⟨diag', bind_eq_error.2 (.inl he)⟩
    · obtain ⟨hkind, rfl⟩ := symbol_eq_ok.1 hs
      obtain ⟨p, hp, he⟩ := hc.advance hkind (by simp)
      have hpos : c.position = p := by rw [hp]; rfl
      rw [hpos] at h
      obtain ⟨ts, d, hts, hat, ⟨us, ss, hss⟩, hdeep⟩ := statements_prompt_error hm he h hn
      refine ⟨⟨.symbol .openBrace, p⟩ :: ts, d, ?_, ?_, ⟨us ++ [⟨.symbol .closeBrace, p⟩], ss, ?_⟩,
        fun d' hd' => ?_⟩
      · rw [unread_cons, ← hts]
        exact hp
      · rcases hat with hat | ⟨rfl, hd, hbal⟩
        · exact hat.append [_]
        · refine .opening hd fun stack => ?_
          rw [List.foldl_cons, hbal]
          rfl
      · rw [List.cons_append, ← List.append_assoc]
        exact hss.braces p p
      · exact hdeep d' hd'

end Block

theorem callStatement_prompt :
    callStatement.Prompt callStatement (Unlimited IsStatement) := by
  refine ⟨Unlimited.exists_statement, fun k => ?_⟩
  refine position_promptAt Unlimited.exists_statement fun p => ?_
  refine (identifier_prompt.promptAt k).bind fun name => (symbol_prompt _).bind fun _ =>
    (symbol_prompt _).bind fun _ => (symbol_prompt _).bind fun _ => pure_prompt ?_
  rintro _ ⟨_, p₃, rfl, rfl⟩ _ ⟨_, p₂, rfl, rfl⟩ _ ⟨_, p₁, rfl, rfl⟩ _ ⟨_, p', rfl, rfl⟩ hp
  obtain rfl : p' = p := hp _ rfl
  exact .call name p' p₁ p₂ p₃

section Nested

variable {n m : Nat} {block deepBlock : Mover (List Statement)}
  {elseIf deepElseIf : Mover Statement}

theorem repeatStatement_prompt (hb : block.read.Prompt deepBlock.read (Unlimited IsBlock)) :
    (repeatStatement block).Prompt (repeatStatement deepBlock) (Unlimited IsStatement) := by
  refine ⟨Unlimited.exists_statement, fun k => ?_⟩
  refine position_promptAt Unlimited.exists_statement fun p => ?_
  refine ((keyword_prompt _).promptAt k).bind fun _ => (symbol_prompt _).bind fun _ =>
    count_prompt.bind fun value => (symbol_prompt _).bind fun _ => hb.bind fun body =>
      pure_prompt ?_
  rintro ts hts _ ⟨_, p₃, rfl, rfl⟩ _ ⟨_, p₂, rfl, digits, rfl, hdigits⟩ _ ⟨_, p₁, rfl, rfl⟩ _
    ⟨_, p', rfl, rfl⟩ hp
  obtain rfl : p' = p := hp _ rfl
  rw [List.append_nil]
  exact .repeat p' p₁ p₂ p₃ hdigits hts

theorem whileStatement_prompt (hnm : n ≤ m)
    (hb : block.read.Prompt deepBlock.read (Unlimited IsBlock)) :
    (whileStatement n block).Prompt (whileStatement m deepBlock) (Unlimited IsStatement) := by
  refine ⟨Unlimited.exists_statement, fun k => ?_⟩
  refine position_promptAt Unlimited.exists_statement fun p => ?_
  refine ((keyword_prompt _).promptAt k).bind fun _ => (symbol_prompt _).bind fun _ =>
    (condition_prompt hnm).bind fun cond => (symbol_prompt _).bind fun _ => hb.bind fun body =>
      pure_prompt ?_
  rintro us hus _ ⟨_, p₂, rfl, rfl⟩ ts hts _ ⟨_, p₁, rfl, rfl⟩ _ ⟨_, p', rfl, rfl⟩ hp
  obtain rfl : p' = p := hp _ rfl
  rw [List.append_nil]
  exact .while p' p₁ p₂ hts hus

/-- What may follow the first block of an `if` that starts at a given position. -/
def EndsBranch (cond : Condition) (yes : List Statement) (p : Position) (vs : List Token)
    (s : Statement) : Prop :=
  ∀ p₁ p₂ ts us, Unlimited IsCondition ts cond → Unlimited IsBlock us yes →
    Unlimited IsBranch (⟨.keyword .if, p⟩ :: ⟨.symbol .openParen, p₁⟩ ::
      (ts ++ ⟨.symbol .closeParen, p₂⟩ :: (us ++ vs))) s

theorem elsePart_prompt (hb : block.read.Prompt deepBlock.read (Unlimited IsBlock))
    (he : elseIf.read.Prompt deepElseIf.read (Unlimited IsBranch)) (cond : Condition)
    (yes : List Statement) (p : Position) :
    (elsePart block elseIf cond yes p).Prompt (elsePart deepBlock deepElseIf cond yes p)
      (EndsBranch cond yes p) := by
  have hplain : EndsBranch cond yes p [] (.if cond yes p) := by
    intro p₁ p₂ ts us hts hus
    rw [List.append_nil]
    exact .plain p p₁ p₂ hts hus
  have hblock : ∃ vs s, ∀ pre, (∃ p₃, pre = [⟨.keyword .else, p₃⟩]) →
      EndsBranch cond yes p (pre ++ vs) s := by
    obtain ⟨vs, no, hvs⟩ := Unlimited.exists_block
    refine ⟨vs, .ifElse cond yes no p, ?_⟩
    rintro _ ⟨p₃, rfl⟩ p₁ p₂ ts us hts hus
    exact .orBlock p p₁ p₂ p₃ hts hus hvs
  refine peek_prompt ⟨[], _, hplain⟩ fun k => ?_
  split
  · next hk =>
    subst hk
    refine (advance_promptAt (by simp)).bind fun _ => peek_prompt hblock fun k => ?_
    split
    · refine (hb.bind fun no => pure_prompt ?_).promptAt _
      rintro vs hvs _ ⟨p₃, rfl⟩ p₁ p₂ ts us hts hus
      rw [List.append_nil]
      exact .orBlock p p₁ p₂ p₃ hts hus hvs
    · refine (he.bind fun link => pure_prompt ?_).promptAt _
      rintro vs hvs _ ⟨p₃, rfl⟩ p₁ p₂ ts us hts hus
      rw [List.append_nil]
      exact .orIf p p₁ p₂ p₃ hts hus hvs
    · exact fail_promptAt hblock (by simp)
  · exact (pure_prompt hplain).promptAt k

theorem ifStatement_prompt (hnm : n ≤ m)
    (hb : block.read.Prompt deepBlock.read (Unlimited IsBlock))
    (he : elseIf.read.Prompt deepElseIf.read (Unlimited IsBranch)) :
    (ifStatement n block elseIf).Prompt (ifStatement m deepBlock deepElseIf)
      (Unlimited IsBranch) := by
  refine ⟨Unlimited.exists_branch, fun k => ?_⟩
  refine position_promptAt Unlimited.exists_branch fun p => ?_
  refine ((keyword_prompt _).promptAt k).bind fun _ => (symbol_prompt _).bind fun _ =>
    (condition_prompt hnm).bind fun cond => (symbol_prompt _).bind fun _ => hb.bind fun yes =>
      (elsePart_prompt hb he cond yes p).mono ?_
  rintro vs s h us hus _ ⟨_, p₂, rfl, rfl⟩ ts hts _ ⟨_, p₁, rfl, rfl⟩ _ ⟨_, p', rfl, rfl⟩ hp
  obtain rfl : p' = p := hp _ rfl
  exact h p₁ p₂ ts us hts hus

theorem statement_prompt (hnm : n ≤ m)
    (hb : block.read.Prompt deepBlock.read (Unlimited IsBlock))
    (he : elseIf.read.Prompt deepElseIf.read (Unlimited IsBranch)) :
    (statement n block elseIf).Prompt (statement m deepBlock deepElseIf)
      (Unlimited IsStatement) := by
  have hR := Unlimited.exists_statement
  refine peek_prompt hR fun k => ?_
  split
  · exact callStatement_prompt.promptAt _
  · exact (repeatStatement_prompt hb).promptAt _
  · refine ((ifStatement_prompt hnm hb he).mono ?_).promptAt _
    intro ts s h
    exact h.branch
  · exact (whileStatement_prompt hnm hb).promptAt _
  · refine promptAt_of_error hR fun c _ => ⟨strayVoid c, rfl, ?_⟩
    unfold strayVoid
    extract_lets header
    split <;> simp
  · exact fail_promptAt hR (by simp)
  · exact fail_promptAt hR (by simp)
  · exact fail_promptAt hR (by simp)

end Nested

/-- The readers with some levels left and with more. -/
theorem level_prompt {n m : Nat} (h : n ≤ m) :
    (Level.ofNat n).block.read.Prompt (Level.ofNat m).block.read (Unlimited IsBlock) ∧
      (Level.ofNat n).elseIf.read.Prompt (Level.ofNat m).elseIf.read (Unlimited IsBranch) := by
  induction n generalizing m with
  | zero => exact ⟨tooDeep_prompt Unlimited.exists_block, tooDeep_prompt Unlimited.exists_branch⟩
  | succ n ih =>
    obtain ⟨m, rfl⟩ := Nat.exists_eq_add_of_le' h
    have hnm : n ≤ m + n := Nat.le_add_left n m
    obtain ⟨hb, he⟩ := ih hnm
    exact ⟨braced_prompt (statement_prompt hnm hb he), ifStatement_prompt hnm hb he⟩

/-! ## Programs -/

theorem commandWith_prompt {n m : Nat} (h : n ≤ m) :
    (commandWith n).Prompt (commandWith m) (Unlimited IsCommand) := by
  refine ⟨Unlimited.exists_command, fun k => ?_⟩
  refine position_promptAt Unlimited.exists_command fun p => ?_
  refine ((keyword_prompt _).promptAt k).bind fun _ => identifier_prompt.bind fun name =>
    (symbol_prompt _).bind fun _ => (symbol_prompt _).bind fun _ => (level_prompt h).1.bind
      fun body => pure_prompt ?_
  rintro ts hts _ ⟨_, p₃, rfl, rfl⟩ _ ⟨_, p₂, rfl, rfl⟩ _ ⟨_, p₁, rfl, rfl⟩ _ ⟨_, p', rfl, rfl⟩ hp
  obtain rfl : p' = p := hp _ rfl
  rw [List.append_nil]
  exact .void name p' p₁ p₂ p₃ hts

theorem strayAtTop_ne_unclosedBlock (c : Cursor) : strayAtTop c ≠ .unclosedBlock := by
  unfold strayAtTop
  split
  case h_7 => split <;> simp
  all_goals simp

/-- The tokens from a cursor on are no commands with an end of file behind them. -/
def Hopeless (n : Nat) (c : Cursor) : Prop :=
  ∀ ⦃body last cs⦄, AreCommands n body cs → last.kind = .eof → c ≠ unread body ⟨last, []⟩

/-- The first of some commands is read before the others. -/
theorem hopeless_of_first {n : Nat} {c : Cursor} (heof : c.kind ≠ .eof)
    (h : ∀ a e, c.kind = .keyword .void → commandWith n c = .ok (a, e) → Hopeless n e) :
    Hopeless n c := by
  rintro body last cs hcs hlast rfl
  cases hcs with
  | nil => exact heof hlast
  | @cons us vs a as ha has =>
    rw [unread_append] at h
    exact h a _ (opens_command ha _) (read_commandWith ha _) has hlast rfl

theorem commands_prompt_error {n : Nat} (hn : nestingLimit ≤ n) {c : Cursor} {diag : Diagnostic}
    (hc : c.Closed) (h : commands c = .error diag) (hissue : diag.issue ≠ .tooDeep) :
    ∃ ts d, c = unread ts d ∧ diag.PointsAt ts d ∧
      (∃ us a as, Unlimited AreCommands (ts ++ us) (a :: as)) ∧
      ∀ d', d'.current = d.current → Hopeless n (unread ts d') := by
  have hprompt : command.Prompt (commandWith n) (Unlimited IsCommand) := commandWith_prompt hn
  fun_induction commands c generalizing diag with
  | case1 => cases h
  | case2 c hk diag' hread =>
    cases h
    obtain ⟨ts, d, rfl, hat, ⟨us, a, ha⟩, hdeep⟩ := (hprompt.promptAt _).error hc rfl hread hissue
    refine ⟨ts, d, rfl, hat, ⟨us, a, [], ?_⟩, fun d' hd' => ?_⟩
    · simpa using ha.commands .noCommands
    · apply hopeless_of_first
      · rw [kind_unread hd' ts, hk]
        simp
      · intro a e _ hok
        obtain ⟨diag'', he⟩ := hdeep d' hd'
        cases he.symm.trans hok
  | case3 c hk first c' hread hlt diag' herror ih =>
    cases h
    obtain ⟨ts, rfl, hc', hts, hdeep⟩ := (hprompt.promptAt _).ok hc rfl hread
    obtain ⟨us, d, rfl, hat, ⟨vs, a, as, has⟩, hhopeless⟩ := ih hc' herror hissue
    refine ⟨ts ++ us, d, (unread_append ts us d).symm, hat.append ts, ⟨vs, first, a :: as, ?_⟩,
      fun d' hd' => ?_⟩
    · rw [List.append_assoc]
      exact hts.commands has
    · have hcurrent := current_unread hd' us
      rw [unread_append]
      apply hopeless_of_first
      · rw [kind_unread hcurrent ts, hk]
        simp
      · intro a e _ hok
        cases (hdeep _ hcurrent).symm.trans hok
        exact hhopeless d' hd'
  | case4 => cases h
  | case5 c heof hvoid =>
    cases h
    obtain ⟨us, a, ha⟩ := Unlimited.exists_command
    refine ⟨[], c, rfl, .here (strayAtTop_ne_unclosedBlock c), ⟨us, a, [], ?_⟩, fun d' hd' => ?_⟩
    · simpa using ha.commands .noCommands
    · have hkind : d'.kind = c.kind := congrArg Token.kind hd'
      apply hopeless_of_first
      · rwa [unread_nil, hkind]
      · intro a e hk
        exact absurd (hkind.symm.trans hk) hvoid

end Reader

namespace Grammar

/-- Tokens that a program of a given depth starts with. -/
def ViableAt (n : Nat) (ts : List Token) : Prop :=
  ∃ body last p, IsProgram n body p ∧ last.kind = .eof ∧ ts <+: body ++ [last]

/-- Tokens that some program starts with. -/
def Viable (ts : List Token) : Prop := ∃ n, ViableAt n ts

theorem ViableAt.le {n m : Nat} {ts : List Token} (h : ViableAt n ts) (hnm : n ≤ m) :
    ViableAt m ts := by
  obtain ⟨body, last, p, ⟨hne, hcs⟩, hlast, hts⟩ := h
  exact ⟨body, last, p, ⟨hne, rising_commands.le hcs hnm⟩, hlast, hts⟩

theorem viable_of_commands {ts us : List Token} {a : Command} {as : List Command}
    (h : Unlimited AreCommands (ts ++ us) (a :: as)) : Viable ts := by
  obtain ⟨n, h⟩ := h
  refine ⟨n, ts ++ us, ⟨.eof, .start⟩, ⟨a :: as⟩, ⟨List.cons_ne_nil a as, h⟩, rfl, ?_⟩
  rw [List.append_assoc]
  exact List.prefix_append ts _

/-- There is a depth that serves all viable lists among some. -/
theorem exists_viableAt (ls : List (List Token)) : ∃ n, ∀ ts ∈ ls, Viable ts → ViableAt n ts := by
  induction ls with
  | nil => exact ⟨0, by simp⟩
  | cons us ls ih =>
    obtain ⟨n, hn⟩ := ih
    by_cases hus : Viable us
    · obtain ⟨m, hm⟩ := hus
      refine ⟨max n m, List.forall_mem_cons.2 ⟨fun _ => hm.le (Nat.le_max_right n m), ?_⟩⟩
      intro ts hts h
      exact (hn ts hts h).le (Nat.le_max_left n m)
    · exact ⟨n, List.forall_mem_cons.2 ⟨fun h => absurd h hus, hn⟩⟩

end Grammar

namespace Program

open Cursor Grammar Reader

theorem not_viableAt {n : Nat} {ts : List Token} {t : Token}
    (h : ∀ d' body last p, d'.current = t → IsProgram n body p → last.kind = .eof →
      unread ts d' ≠ unread body ⟨last, []⟩) : ¬ ViableAt n (ts ++ [t]) := by
  rintro ⟨body, last, p, hp, hlast, rest, hrest⟩
  apply h ⟨t, rest⟩ body last p rfl hp hlast
  have htokens := tokens_unread ts ⟨t, rest⟩
  rw [List.append_cons, hrest, ← tokens_unread body ⟨last, []⟩] at htokens
  injection htokens with hcurrent hrests
  exact congrArg₂ Cursor.mk hcurrent hrests

theorem read_prompt_error {n : Nat} (hn : nestingLimit ≤ n) {c : Cursor} {diag : Diagnostic}
    (hc : c.Closed) (h : read c = .error diag) (hissue : diag.issue ≠ .tooDeep) :
    ∃ ts d, c = unread ts d ∧ diag.PointsAt ts d ∧ Viable ts ∧
      ¬ ViableAt n (ts ++ [d.current]) := by
  rcases read_eq_error.1 h with ⟨heof, rfl⟩ | ⟨-, hcs⟩
  · obtain ⟨us, a, ha⟩ := Unlimited.exists_command
    have hviable : Viable [] := viable_of_commands (ha.commands .noCommands)
    refine ⟨[], c, rfl, .here (strayAtTop_ne_unclosedBlock c), hviable, not_viableAt ?_⟩
    rintro d' body last ⟨cs⟩ hd' ⟨hne, hcs⟩ hlast heq
    -- A program starts with a `void`.
    have hkind : d'.kind = .eof := (congrArg Token.kind hd').trans heof
    cases hcs with
    | nil => exact hne rfl
    | @cons us vs a as ha has =>
      rw [unread_nil, unread_append] at heq
      rw [heq, opens_command ha] at hkind
      cases hkind
  · obtain ⟨ts, d, hts, hat, ⟨us, a, as, has⟩, hhopeless⟩ := commands_prompt_error hn hc hcs hissue
    refine ⟨ts, d, hts, hat, viable_of_commands has, not_viableAt ?_⟩
    intro d' body last p hd' hp hlast
    exact hhopeless d' hd' hp.2 hlast

/-- If tokens with one end of file behind them are refused, and not for the depth of their nesting,
then they are refused at the first token with which they cannot be the start of any program, however
deep: what stands before it is the start of one. The report is about that token. Only when the end
of the file comes before the end of a block is it about the innermost brace that is open. -/
theorem refused_at_first_hopeless {body : List Token} {last : Token} (hlast : last.kind = .eof)
    (hbody : ∀ t ∈ body, t.kind ≠ .eof)
    (hdigits : ∀ t ∈ body, ∀ digits, t.kind = .number digits →
      digits.toList ≠ [] ∧ ∀ c ∈ digits.toList, c.isDigit)
    {diag : Diagnostic} (h : ofTokens? (body ++ [last]) = some (.error diag))
    (hcode : diag.issue.code ≠ "P006") :
    ∃ before t after, body ++ [last] = before ++ t :: after ∧
      Viable before ∧ ¬ Viable (before ++ [t]) ∧
      (diag.issue ≠ .unclosedBlock → diag.position = t.position) ∧
      (diag.issue = .unclosedBlock →
        t.kind = .eof ∧ (openBraces (body ++ [last])).head? = some diag.position) := by
  have hclosed : (unread body ⟨last, []⟩).Closed := .unread hbody hdigits (.last hlast)
  have hissue : diag.issue ≠ .tooDeep := by
    intro hi
    rw [hi] at hcode
    exact hcode rfl
  rw [ofTokens?_append, Option.some_inj] at h
  -- Enough levels for every list that the tokens start with.
  obtain ⟨m, hm⟩ := exists_viableAt (body ++ [last]).inits
  obtain ⟨ts, d, hts, hat, hviable, hnot⟩ :=
    read_prompt_error (Nat.le_max_right m nestingLimit) hclosed h hissue
  have htokens : body ++ [last] = ts ++ d.current :: d.rest := by
    rw [← tokens_unread, ← hts]
    exact (tokens_unread body ⟨last, []⟩).symm
  refine ⟨ts, d.current, d.rest, htokens, hviable, ?_, ?_, ?_⟩
  · intro hv
    have hmem : ts ++ [d.current] ∈ (body ++ [last]).inits := by
      rw [List.mem_inits, htokens, List.append_cons ts d.current d.rest]
      exact List.prefix_append (ts ++ [d.current]) d.rest
    exact hnot ((hm _ hmem hv).le (Nat.le_max_left m nestingLimit))
  · intro hne
    cases hat with
    | here => rfl
    | opening => exact absurd rfl hne
  · intro hi
    cases hat with
    | here hne => exact absurd hi hne
    | opening hd hstack =>
      have hd' : d.rest = [] := (Closed.of_unread (hts ▸ hclosed)).rest_eq_nil hd
      have henclose : ∀ stack, enclose stack d.current = stack := by
        intro stack
        rw [enclose, show d.current.kind = .eof from hd]
      refine ⟨hd, ?_⟩
      rw [htokens, hd', openBraces, List.foldl_append, List.foldl_cons, henclose]
      exact hstack []

/-- The tokens of `void main() {` without the end of file. -/
def unclosedTokens : List Token :=
  [⟨.keyword .void, ⟨1, 1⟩⟩, ⟨.ident "main", ⟨1, 6⟩⟩, ⟨.symbol .openParen, ⟨1, 10⟩⟩,
    ⟨.symbol .closeParen, ⟨1, 11⟩⟩, ⟨.symbol .openBrace, ⟨1, 13⟩⟩]

theorem read_unclosedTokens :
    ofTokens? (unclosedTokens ++ [⟨.eof, ⟨1, 14⟩⟩]) = some (.error ⟨.unclosedBlock, ⟨1, 13⟩⟩) := by
  have hbody : statements (inner 63) ⟨1, 13⟩ ⟨⟨.eof, ⟨1, 14⟩⟩, []⟩ =
      .error ⟨.unclosedBlock, ⟨1, 13⟩⟩ := by
    rw [statements]
    rfl
  have hcommand : command (unread unclosedTokens ⟨⟨.eof, ⟨1, 14⟩⟩, []⟩) =
      .error ⟨.unclosedBlock, ⟨1, 13⟩⟩ := command_of_block_error hbody
  exact congrArg some (read_of_command_error rfl hcommand)

theorem unclosedTokens_refused :
    ∃ before t after, unclosedTokens ++ [⟨.eof, ⟨1, 14⟩⟩] = before ++ t :: after ∧
      Viable before ∧ ¬ Viable (before ++ [t]) ∧ t.kind = .eof ∧
      (openBraces (unclosedTokens ++ [⟨.eof, ⟨1, 14⟩⟩])).head? = some ⟨1, 13⟩ := by
  obtain ⟨before, t, after, hsplit, hviable, hnot, -, hopening⟩ :=
    refused_at_first_hopeless rfl (by decide) (by simp [unclosedTokens]) read_unclosedTokens
      (by decide)
  exact ⟨before, t, after, hsplit, hviable, hnot, hopening rfl⟩

end Program
end Karel
