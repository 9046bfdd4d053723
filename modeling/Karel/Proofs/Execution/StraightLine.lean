import Karel.Proofs.Execution.Undisturbed
import Karel.Proofs.Source.Lexing
import Karel.Proofs.Source.ProgramGrammar

/-! # Straight lines of actions

A text that defines one command and in it lists some actions, followed from its characters to the
end of its run: it is cut into the tokens of calls, these are read as calls, the calls are compiled
to actions, and the run performs the actions one by one. It goes on as long as the budget lasts and
each action is allowed where the ones before it have led.
-/
namespace Karel

open Cursor Grammar

/-- Calls of some actions, each with a blank behind it, and a closing brace. -/
def callsText : List Primitive → String
  | [] => "\x7d"
  | a :: as => a.name ++ "(); " ++ callsText as

/-- The command `main` with the calls of some actions on one line. -/
def lineText (as : List Primitive) : String := "void main() \x7b " ++ callsText as

/-- The executable in which `main` performs some actions. -/
def Executable.line (as : List Primitive) : Executable where
  entry := 0
  routines := [⟨"main", as.map fun a => .action a 1, 1⟩]

/-! ## From the text to the executable -/

theorem Primitive.isIdentifier_name (a : Primitive) : IsIdentifier a.name := by
  cases a <;> exact ⟨⟨_, _, rfl, by decide, List.all_eq_true.1 (by decide)⟩, by decide⟩

theorem isIdentifier_main : IsIdentifier "main" :=
  ⟨⟨_, _, rfl, by decide, List.all_eq_true.1 (by decide)⟩, by decide⟩

/-- The tokens of a call with a blank behind it. -/
theorem tokensFrom_call {text : String} (h : IsIdentifier text) (p : Position) (rest : List Char) :
    ∃ p₁ p₂ p₃ q, q.line = p.line ∧
      tokensFrom p (text.toList ++ '(' :: ')' :: ';' :: ' ' :: rest) =
        ⟨.ident text, p⟩ :: ⟨.symbol .openParen, p₁⟩ :: ⟨.symbol .closeParen, p₂⟩ ::
          ⟨.symbol .semicolon, p₃⟩ :: tokensFrom q rest := by
  have hstop : ∀ a ∈ ('(' :: ')' :: ';' :: ' ' :: rest).head?, isNameRest a = false := by
    intro a ha
    cases ha
    decide
  have htokens := tokensFrom_identifier p h hstop
  rw [tokensFrom_single _ rfl, tokensFrom_single _ rfl, tokensFrom_single _ rfl,
    tokensFrom_blank _ (by decide)] at htokens
  refine ⟨_, _, _, _, ?_, htokens⟩
  exact Position.line_after p h.newline_notMem

theorem tokensFrom_callsText (as : List Primitive) (p : Position) :
    ∃ ts ss q q', tokensFrom p (callsText as).toList =
        ts ++ [⟨.symbol .closeBrace, q⟩, ⟨.eof, q'⟩] ∧
      (∀ n, IsSequence n ts ss) ∧
      ∀ table : NameTable, table.resolveBlock ss = .ok (as.map fun a => .action a p.line) := by
  induction as generalizing p with
  | nil =>
    refine ⟨[], [], p, p.next '\x7d', ?_, fun n => .nil, fun table => rfl⟩
    change tokensFrom p ['\x7d'] = _
    rw [tokensFrom_single p rfl, tokensFrom_nil]
    rfl
  | cons a as ih =>
    obtain ⟨p₁, p₂, p₃, q, hline, hcall⟩ :=
      tokensFrom_call a.isIdentifier_name p (callsText as).toList
    obtain ⟨ts, ss, q₁, q₂, hrest, hseq, hresolve⟩ := ih q
    refine ⟨[⟨.ident a.name, p⟩, ⟨.symbol .openParen, p₁⟩, ⟨.symbol .closeParen, p₂⟩,
        ⟨.symbol .semicolon, p₃⟩] ++ ts, .call a.name p :: ss, q₁, q₂, ?_, fun n => ?_, ?_⟩
    · have htext : (callsText (a :: as)).toList =
          a.name.toList ++ '(' :: ')' :: ';' :: ' ' :: (callsText as).toList := by
        simp [callsText]
      rw [htext, hcall, hrest]
      rfl
    · exact .cons (.call a.name p p₁ p₂ p₃) (hseq n)
    · intro table
      have hname : table.resolveStatement (.call a.name p) = .ok (.action a p.line) := by
        rw [NameTable.resolveStatement, NameTable.resolveCall, Primitive.ofName?_name]
      rw [NameTable.resolveBlock, hname, hresolve table, hline]
      rfl

/-- The tokens of a definition up to the blank behind its brace. -/
theorem tokensFrom_header (rest : List Char) :
    ∃ p₁ p₂ p₃ p₄ q, q.line = 1 ∧
      tokensFrom .start ("void main() \x7b ".toList ++ rest) =
        ⟨.keyword .void, .start⟩ :: ⟨.ident "main", p₁⟩ :: ⟨.symbol .openParen, p₂⟩ ::
          ⟨.symbol .closeParen, p₃⟩ :: ⟨.symbol .openBrace, p₄⟩ :: tokensFrom q rest := by
  have hvoid : ∀ a ∈ (' ' :: ("main".toList ++ '(' :: ')' :: ' ' :: '\x7b' :: ' ' :: rest)).head?,
      isNameRest a = false := by
    intro a ha
    cases ha
    decide
  have hmain : ∀ a ∈ ('(' :: ')' :: ' ' :: '\x7b' :: ' ' :: rest).head?, isNameRest a = false := by
    intro a ha
    cases ha
    decide
  have hkeyword : Token.Kind.ofWord (String.ofList ('v' :: "oid".toList)) = .keyword .void := by
    decide
  have hrest : ∀ a ∈ "oid".toList, isNameRest a = true := List.all_eq_true.1 (by decide)
  have htokens := tokensFrom_word .start (c := 'v') (by decide) hrest hvoid
  rw [hkeyword, tokensFrom_blank _ (by decide), tokensFrom_identifier _ isIdentifier_main hmain,
    tokensFrom_single _ rfl, tokensFrom_single _ rfl, tokensFrom_blank _ (by decide),
    tokensFrom_single _ rfl, tokensFrom_blank _ (by decide)] at htokens
  exact ⟨_, _, _, _, _, rfl, htokens⟩

theorem parse_lineText (as : List Primitive) :
    ∃ ss, Program.parse (lineText as) = .ok ⟨[⟨"main", ss, .start⟩]⟩ ∧
      ∀ table : NameTable, table.resolveBlock ss = .ok (as.map fun a => .action a 1) := by
  obtain ⟨p₁, p₂, p₃, p₄, q, hline, hheader⟩ := tokensFrom_header (callsText as).toList
  obtain ⟨ts, ss, q₁, q₂, hcalls, hseq, hresolve⟩ := tokensFrom_callsText as q
  rw [hline] at hresolve
  refine ⟨ss, ?_, hresolve⟩
  have htokens : tokenize (lineText as) =
      (⟨.keyword .void, .start⟩ :: ⟨.ident "main", p₁⟩ :: ⟨.symbol .openParen, p₂⟩ ::
        ⟨.symbol .closeParen, p₃⟩ :: ⟨.symbol .openBrace, p₄⟩ ::
          (ts ++ [⟨.symbol .closeBrace, q₁⟩])) ++ [⟨.eof, q₂⟩] := by
    rw [tokenize, lineText, String.toList_append, hheader, hcalls]
    simp
  have hcommand : IsCommand nestingLimit _ _ :=
    .void "main" .start p₁ p₂ p₃ (.braces p₄ q₁ (hseq 63))
  have hcommands : AreCommands nestingLimit _ _ := .cons hcommand .nil
  rw [List.append_nil] at hcommands
  have hread : Program.read (unread _ ⟨⟨.eof, q₂⟩, []⟩) = .ok _ :=
    Program.read_of_isProgram rfl ⟨List.cons_ne_nil _ _, hcommands⟩
  have hparse := Program.ofTokens?_tokenize (lineText as)
  rw [htokens, Program.ofTokens?, ofList?_append, Option.map_some, hread] at hparse
  exact (Option.some.inj hparse).symm

theorem compile_lineText (as : List Primitive) : compile (lineText as) none = .ok (.line as) := by
  obtain ⟨ss, hparse, hresolve⟩ := parse_lineText as
  have hmain : isVocabulary "main" = false := by decide
  have hcompile : Program.compile ⟨[⟨"main", ss, .start⟩]⟩ none = .ok (.line as) := by
    unfold Program.compile
    have htable : NameTable.ofProgram ⟨[⟨"main", ss, .start⟩]⟩ = .ok [⟨"main", 0, 1⟩] := by
      rw [NameTable.ofProgram, NameTable.declareAll, hmain]
      rfl
    have hroutines : NameTable.resolveAll [⟨"main", 0, 1⟩] ⟨[⟨"main", ss, .start⟩]⟩ =
        .ok (Executable.line as).routines := by
      rw [NameTable.resolveAll, List.mapM_cons, NameTable.resolveCommand, hresolve]
      rfl
    rw [htable]
    change (NameTable.resolveAll _ _ >>= _) = _
    rw [hroutines]
    rfl
  unfold compile
  rw [hparse]
  exact hcompile

/-! ## The run -/

namespace World

/-- The world after some actions, whether or not they were allowed. -/
def afterActions (w : World) (as : List Primitive) : World := as.foldl (fun v a => a.apply v) w

/-- Each action is allowed where the ones before it lead. -/
def Allows : World → List Primitive → Prop
  | _, [] => True
  | w, a :: as => a.check w = .ok () ∧ (a.apply w).Allows as

/-- What is noted of some actions that one line asks for. -/
def events (line : Nat) : World → List Primitive → List Event
  | _, [] => []
  | w, a :: as => ⟨a, line, a.apply w⟩ :: (a.apply w).events line as

theorem allows_append (w : World) (as bs : List Primitive) :
    w.Allows (as ++ bs) ↔ w.Allows as ∧ (w.afterActions as).Allows bs := by
  induction as generalizing w with
  | nil =>
    constructor
    · intro h
      exact ⟨trivial, h⟩
    · intro h
      exact h.2
  | cons a as ih =>
    have htail := ih (a.apply w)
    constructor
    · rintro ⟨ha, has⟩
      obtain ⟨h₁, h₂⟩ := htail.1 has
      exact ⟨⟨ha, h₁⟩, h₂⟩
    · rintro ⟨⟨ha, h₁⟩, h₂⟩
      exact ⟨ha, htail.2 ⟨h₁, h₂⟩⟩

end World

/-- How a line of actions ends, of which so many have been performed and led to a world, and which
still has some to go: well if that is none, by the budget if it is used up, and else because the
next action is refused. -/
inductive LineEnds (line budget : Nat) (v : World) (performed : Nat) :
    List Primitive → Outcome → Prop where
  | completed : LineEnds line budget v performed [] .completed
  | overBudget {q : Primitive} {rest : List Primitive} (h : performed = budget) :
      LineEnds line budget v performed (q :: rest) (.fault ⟨line, .budgetExceeded budget⟩)
  | refused {q : Primitive} {rest : List Primitive} {cause : Fault.Cause} (h : performed < budget)
      (hq : q.check v = .error cause) :
      LineEnds line budget v performed (q :: rest) (.fault ⟨line, cause⟩)

theorem LineEnds.longest {line budget : Nat} {w : World} {done rest : List Primitive}
    {outcome : Outcome} (h : LineEnds line budget (w.afterActions done) done.length rest outcome)
    {other : List Primitive} (ho : other <+: done ++ rest) (hlen : other.length ≤ budget)
    (hw : w.Allows other) : other <+: done := by
  rcases List.prefix_or_prefix_of_prefix ho (List.prefix_append done rest) with hp | ⟨more, rfl⟩
  · exact hp
  · -- What comes after `done` begins with the action at which the line ended.
    cases more with
    | nil => simp
    | cons q more =>
      obtain ⟨tail, htail⟩ := (List.prefix_append_right_inj done).1 ho
      rw [List.length_append, List.length_cons] at hlen
      have hq := ((World.allows_append w done _).1 hw).2.1
      cases h with
      | completed => cases htail
      | overBudget hb => omega
      | refused hb hc =>
        cases htail
        rw [hc] at hq
        cases hq

namespace Executable
variable {e : Executable} {limits : Limits} {depth line : Nat}

theorem evalBlock_action_over (a : Primitive) (nodes : List Node) (w : World) :
    evalBlock e limits depth (.action a line :: nodes) 0 w =
      .failed 1 w line (.budgetExceeded limits.budget) := by
  rw [evalBlock_cons, evalNode_eq, Task.seq_assoc]
  rfl

theorem evalBlock_action_refused {a : Primitive} {w : World} {cause : Fault.Cause}
    (h : a.check w = .error cause) (nodes : List Node) (left : Nat) :
    evalBlock e limits depth (.action a line :: nodes) (left + 1) w = .failed 1 w line cause := by
  have hperform : perform a line w = .failed 0 w line cause := by
    rw [perform, h]
  rw [evalBlock_cons, evalNode_eq, Task.seq_assoc, Task.tick_seq_succ]
  change (Effect.counted 1 w).andThen ((perform a line w).andThen _) = _
  rw [hperform]
  rfl

theorem evalBlock_action_allowed {a : Primitive} {w : World} (h : a.check w = .ok ())
    (nodes : List Node) (left : Nat) :
    evalBlock e limits depth (.action a line :: nodes) (left + 1) w =
      (Effect.mk .done 1 [⟨a, line, a.apply w⟩] (a.apply w)).andThen
        (evalBlock e limits depth nodes left (a.apply w)) := by
  have hperform : perform a line w = .performed a line (a.apply w) := by
    rw [perform, h]
  rw [evalBlock_cons, evalNode_eq, Task.seq_assoc, Task.tick_seq_succ]
  change (Effect.counted 1 w).andThen
    ((perform a line w).andThen (evalBlock e limits depth nodes (left - (perform a line w).steps)
      (perform a line w).world)) = _
  rw [hperform, ← Effect.andThen_assoc]
  rfl

theorem report?_done_andThen (steps : Nat) (trace : List Event) (w : World) (next : Effect) :
    ((Effect.mk .done steps trace w).andThen next).report? =
      next.report?.map fun r => ⟨r.outcome, steps + r.steps, trace ++ r.trace, r.world⟩ := by
  obtain ⟨ending, steps', trace', world'⟩ := next
  cases ending <;> rfl

/-- A line of actions with some steps left performs as many as it can. -/
theorem report?_evalBlock_actions (e : Executable) (limits : Limits) (depth line : Nat)
    (as : List Primitive) (left : Nat) (w : World) (hleft : left ≤ limits.budget) :
    ∃ r, (evalBlock e limits depth (as.map fun a => .action a line) left w).report? = some r ∧
      ∃ done rest, as = done ++ rest ∧ done.length ≤ left ∧ w.Allows done ∧
        r.trace = w.events line done ∧ r.world = w.afterActions done ∧
        LineEnds line limits.budget (w.afterActions done) (limits.budget - left + done.length) rest
          r.outcome := by
  induction as generalizing left w with
  | nil =>
    rw [List.map_nil, evalBlock_nil]
    exact ⟨_, rfl, [], [], rfl, Nat.zero_le _, trivial, rfl, rfl, .completed⟩
  | cons a as ih =>
    rw [List.map_cons]
    cases left with
    | zero =>
      rw [evalBlock_action_over]
      exact ⟨_, rfl, [], a :: as, rfl, Nat.le_refl _, trivial, rfl, rfl, .overBudget rfl⟩
    | succ left =>
      cases hcheck : a.check w with
      | error cause =>
        rw [evalBlock_action_refused hcheck]
        have hlt : limits.budget - (left + 1) + 0 < limits.budget := by omega
        exact ⟨_, rfl, [], a :: as, rfl, Nat.zero_le _, trivial, rfl, rfl, .refused hlt hcheck⟩
      | ok =>
        obtain ⟨r, hr, done, rest, rfl, hlen, hallows, htrace, hworld, hends⟩ :=
          ih left (a.apply w) (by omega)
        rw [evalBlock_action_allowed hcheck, report?_done_andThen, hr]
        have hcount : limits.budget - (left + 1) + (a :: done).length =
            limits.budget - left + done.length := by
          rw [List.length_cons]
          omega
        refine ⟨_, rfl, a :: done, rest, rfl, Nat.succ_le_succ hlen, ⟨hcheck, hallows⟩, ?_, hworld,
          ?_⟩
        · simp only [htrace]
          rfl
        · rw [hcount]
          exact hends

end Executable

/-- A text that lists some actions in one command compiles, and its run performs the longest
beginning of the list that the budget allows and of which each action is allowed where the ones
before it lead. It completes if that is the whole list. Otherwise it ends at the first action that
is left, by the budget if that is used up and else because the action is refused. -/
theorem line_performs_longest_prefix (as : List Primitive) (w : World) (limits : Limits)
    (hd : 1 ≤ limits.depth) :
    ∃ e r, compile (lineText as) none = .ok e ∧ (e.run limits w).report? = some r ∧
      ∃ done rest, as = done ++ rest ∧ done.length ≤ limits.budget ∧ w.Allows done ∧
        (∀ other, other <+: as → other.length ≤ limits.budget → w.Allows other → other <+: done) ∧
        r.trace = w.events 1 done ∧ r.world = w.afterActions done ∧
        LineEnds 1 limits.budget (w.afterActions done) done.length rest r.outcome := by
  obtain ⟨r, hr, done, rest, rfl, hlen, hallows, htrace, hworld, hends⟩ :=
    Executable.report?_evalBlock_actions (.line as) limits 1 1 as limits.budget w (Nat.le_refl _)
  rw [Nat.sub_self, Nat.zero_add] at hends
  have hfate : (Machine.start w).fate (.line (done ++ rest)) limits =
      Executable.evalBlock (.line (done ++ rest)) limits 1
        ((done ++ rest).map fun a => .action a 1) limits.budget w := by
    have hdepth : ¬ limits.depth ≤ 0 := by omega
    rw [Machine.fate_start, Executable.interpret]
    change (if limits.depth ≤ 0 then _ else _) = _
    rw [if_neg hdepth]
  refine ⟨_, r, compile_lineText _, ?_, done, rest, rfl, hlen, hallows, ?_, htrace, hworld, hends⟩
  · rw [← hr, ← hfate]
    exact (Machine.free_start w).report?_run
  · intro other ho hother hw
    exact hends.longest ho hother hw

/-- The robot turns to the wall behind it and is stopped there. -/
theorem wall_performs_longest_prefix :
    1 ≤ (⟨5, 1⟩ : Limits).depth ∧
      ∃ e r, compile (lineText [.turnAround, .moveForward, .turnLeft]) none = .ok e ∧
        (e.run ⟨5, 1⟩ .empty).report? = some r ∧
        r.trace = [⟨.turnAround, 1, World.empty.turnAround⟩] ∧
        r.outcome = .fault ⟨1, .blocked World.empty.turnAround.pose⟩ := by
  have hd : 1 ≤ (⟨5, 1⟩ : Limits).depth := Nat.le_refl _
  have hwall : Primitive.moveForward.check World.empty.turnAround =
      .error (.blocked World.empty.turnAround.pose) := by
    decide
  obtain ⟨e, r, he, hr, done, rest, has, -, hallows, hlongest, htrace, -, hends⟩ :=
    line_performs_longest_prefix [.turnAround, .moveForward, .turnLeft] .empty ⟨5, 1⟩ hd
  have hfirst := hlongest [.turnAround] (by simp) (by simp) ⟨rfl, trivial⟩
  obtain ⟨more, rfl⟩ := hfirst
  cases more with
  | nil =>
    cases has
    refine ⟨hd, e, r, he, hr, htrace, ?_⟩
    generalize r.outcome = outcome at hends
    cases hends with
    | overBudget hb => cases hb
    | refused hb hq =>
      cases hq.symm.trans hwall
      rfl
  | cons a more =>
    have ha : Primitive.moveForward = a := by
      simp only [List.cons_append, List.nil_append, List.cons.injEq] at has
      exact has.2.1
    subst ha
    have hq := hallows.2.1
    cases hwall.symm.trans hq

end Karel
