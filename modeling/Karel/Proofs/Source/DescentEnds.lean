import Karel.Proofs.Source.ProgramGrammar
import Karel.Proofs.Source.DescentSteps

/-! # Every descent ends

Advancing does not move at the last token, so a descent may read the same token again and again. A
statement and a command move, because they begin with two different tokens; an operand need not, but
each operand inside another one opens a level, and so does each operator. Hence what conditions are
made of ends by induction on the levels that are left, and a block by induction on the tokens ahead.
-/
namespace Karel

/-- What is wrong with a `void` inside a command, by the token behind its header. -/
def Issue.behindHeader : Option Token → Issue
  | some ⟨.symbol .openBrace, _⟩ => .nestedDefinition
  | _ => .voidCall

/-- A call, when its name has been looked at. -/
def Reader.callNamed (name : String) : Reader Statement := do
  let position ← position
  advance
  symbol .openParen
  symbol .closeParen
  symbol .semicolon
  return .call name position

namespace Descent

variable {α β : Type} {tokens : List Token} {depth : Nat} {exit : Nat → Prop} {c : Cursor}

/-! ## Conditions -/

theorem query_steady (name : String) :
    Steady tokens depth (fun _ => query tokens name) (Reader.query name) := by
  intro c
  refine Gives.look (fun _ => position_run) ?_
  unfold Reader.query
  cases Query.ofName? name with
  | some q =>
    exact (advance_steady.bind fun _ => (symbol_steady .openParen).bind fun _ =>
      (symbol_steady .closeParen).bind fun _ => pure_steady _) c
  | none => exact fail_gives _

theorem operand_steady {negated grouped : Reader Condition}
    (hn : Steady tokens depth (fun n => nested tokens (operand tokens n)) negated)
    (hg : Steady tokens depth (fun n => nested tokens (condition tokens n)) grouped) :
    Steady tokens depth (operand tokens) (Reader.operandWith negated grouped) := by
  refine fun c => Gives.succ ?_
  simp only [operand]
  refine Gives.peek fun k _ => ?_
  cases k with
  | symbol s =>
    cases s with
    | bang => exact (advance_steady.bind fun _ => hn.bind fun _ => pure_steady _) c
    | openParen =>
      exact (advance_steady.bind fun _ => hg.bind fun _ =>
        (symbol_steady .closeParen).bind fun _ => pure_steady _) c
    | _ => exact missing_steady _ c
  | ident name => exact query_steady name c
  | invalid message => exact fail_gives _
  | _ => exact missing_steady _ c

/-- What goes on after an operator, on a deeper level, or is done without one. -/
theorem tail_rising {operator : Symbol} {left : Condition} {p : Nat → Descent Condition}
    {more : Reader Condition}
    (hp : Rising tokens depth (fun n => descend tokens >>= fun _ => p n) more) :
    Rising tokens depth (fun n => do
      if (← kind tokens) = .symbol operator then
        advance tokens
        descend tokens
        p n
      else return left) (Reader.tailWith operator left more) := by
  intro c
  refine Gives.peek fun k _ => ?_
  split
  · exact (advance_steady c).andThen fun _ c' _ => hp c'
  · exact gives_pure _ (Nat.le_refl _)

theorem conjuncts_rising {left : Condition} {more : Reader Condition}
    (hp : Rising tokens depth (fun n => descend tokens >>= fun _ => do
      let right ← operand tokens n
      conjuncts tokens n (.and left right)) more) :
    Rising tokens depth (conjuncts tokens · left) (Reader.tailWith .andAnd left more) := by
  refine Rising.succ ?_
  simp only [conjuncts]
  exact tail_rising hp

theorem disjuncts_rising {left : Condition} {more : Reader Condition}
    (hp : Rising tokens depth (fun n => descend tokens >>= fun _ => do
      let right ← conjunction tokens n
      disjuncts tokens n (.or left right)) more) :
    Rising tokens depth (disjuncts tokens · left) (Reader.tailWith .orOr left more) := by
  refine Rising.succ ?_
  simp only [disjuncts]
  exact tail_rising hp

/-- What is read with `n` levels left is what is read with all but `n` levels open. -/
structure ConditionsSteady (tokens : List Token) (n depth : Nat) : Prop where
  operand : Steady tokens depth (operand tokens) (Reader.operand n)
  conjuncts : ∀ left,
    Rising tokens depth (conjuncts tokens · left) (Reader.conjunctionTail n left)
  disjuncts : ∀ left,
    Rising tokens depth (disjuncts tokens · left) (Reader.conditionTail n left)

namespace ConditionsSteady
variable {n : Nat}

theorem conjunction (h : ConditionsSteady tokens n depth) :
    Steady tokens depth (conjunction tokens) (Reader.conjunction n) := by
  refine Steady.succ ?_
  simp only [Descent.conjunction]
  exact restoring_steady fun c => (h.operand c).andThen fun left c' _ => h.conjuncts left c'

theorem condition (h : ConditionsSteady tokens n depth) :
    Steady tokens depth (condition tokens) (Reader.condition n) := by
  refine Steady.succ ?_
  simp only [Descent.condition]
  exact restoring_steady fun c => (h.conjunction c).andThen fun left c' _ => h.disjuncts left c'

end ConditionsSteady

theorem Rising.descend {p : Nat → Descent α} {r : Reader α} (hd : depth < nestingLimit)
    (hp : Rising tokens (depth + 1) p r) :
    Rising tokens depth (fun n => descend tokens >>= fun _ => p n) r := by
  intro c
  refine descend_gives hd ((hp c).mono fun e he => ?_)
  exact Nat.le_of_succ_le he

theorem conditions_steady (tokens : List Token) (n depth : Nat) (h : depth + n = nestingLimit) :
    ConditionsSteady tokens n depth := by
  -- an operand inside another and an operator open a level, whether or not they move
  induction n generalizing depth with
  | zero =>
    obtain rfl : depth = nestingLimit := h
    refine ⟨?_, fun left => ?_, fun left => ?_⟩
    · exact operand_steady (fun _ => descend_full _) fun _ => descend_full _
    · exact conjuncts_rising fun _ => descend_full _
    · exact disjuncts_rising fun _ => descend_full _
  | succ n ih =>
    have hd : depth < nestingLimit := by omega
    have below : ConditionsSteady tokens n (depth + 1) := ih (depth + 1) (by omega)
    refine ⟨?_, fun left => ?_, fun left => ?_⟩
    · rw [Reader.operand_succ]
      exact operand_steady (nested_steady hd below.operand) (nested_steady hd below.condition)
    · exact conjuncts_rising (Rising.descend hd fun c => (below.operand c).andThen fun _ c' _ =>
        below.conjuncts _ c')
    · rw [Reader.conditionTail_succ]
      exact disjuncts_rising (Rising.descend hd fun c => (below.conjunction c).andThen
        fun _ c' _ => below.disjuncts _ c')

/-! ## Statements -/

theorem headerEnd_step {t : Trail} {n k : Nat} (hc : c.IsAt tokens t.now.index)
    (h : Halts (fun calls => if (c.kindAt n).inHeader then headerEnd tokens calls (n + 1)
      else pure n) t (.ok k) t) : Halts (headerEnd tokens · n) t (.ok k) t := by
  refine Halts.succ ?_
  simp only [headerEnd]
  exact (Halts.of_run (kindAt_run hc n)).bind h

/-- The loop ends: beyond the last token nothing can be part of a header. -/
theorem headerEnd_halts {t : Trail} (hc : c.IsAt tokens t.now.index) (ts : List Token) (n : Nat)
    (hts : (c.current :: c.rest).drop n = ts) :
    ∃ k, Halts (headerEnd tokens · n) t (.ok k) t ∧
      c.kindAt k = ((ts.dropWhile fun u => u.kind.inHeader).head?.map Token.kind).getD .eof := by
  have hkind := c.kindAt_eq n
  rw [hts] at hkind
  induction ts generalizing n with
  | nil =>
    refine ⟨n, headerEnd_step hc ?_, hkind⟩
    rw [hkind]
    exact .of_run rfl
  | cons u us ih =>
    have hkind : c.kindAt n = u.kind := hkind
    rw [List.dropWhile_cons]
    cases hu : u.kind.inHeader with
    | true =>
      have hus : (c.current :: c.rest).drop (n + 1) = us := by
        rw [← List.tail_drop, hts, List.tail_cons]
      have hnext := c.kindAt_eq (n + 1)
      rw [hus] at hnext
      obtain ⟨k, hrun, hk⟩ := ih (n + 1) hus hnext
      refine ⟨k, headerEnd_step hc ?_, hk⟩
      rw [hkind, hu]
      exact hrun
    | false =>
      refine ⟨n, headerEnd_step hc ?_, hkind⟩
      rw [hkind, hu]
      exact .of_run rfl

theorem strayVoid_eq {k : Nat} (hk : c.kindAt k =
      ((c.rest.dropWhile fun u => u.kind.inHeader).head?.map Token.kind).getD .eof) :
    Reader.strayVoid c =
      if c.kindAt k = .symbol .openBrace then .nestedDefinition else .voidCall := by
  have hhead : Reader.strayVoid c =
      Issue.behindHeader (c.rest.dropWhile fun u => u.kind.inHeader).head? := rfl
  rw [hhead, hk]
  cases (c.rest.dropWhile fun u => u.kind.inHeader).head? with
  | none => rfl
  | some u =>
    obtain ⟨kind, p⟩ := u
    cases kind with
    | symbol s => cases s <;> rfl
    | _ => rfl

theorem strayVoid_gives :
    Gives tokens depth exit c (fun n => (strayVoid tokens n : Descent α))
      (.error ⟨Reader.strayVoid c, c.position⟩) := by
  refine gives_issue fun t hc => ?_
  obtain ⟨k, hrun, hk⟩ := headerEnd_halts hc c.rest 1 rfl
  refine hrun.bind ((Halts.of_run (kindAt_run hc k)).bind ?_)
  rw [strayVoid_eq hk]
  split
  · exact .of_run (fail_run _ hc)
  · exact .of_run (fail_run _ hc)

theorem callStatement_steady (name : String) :
    Steady tokens depth (fun _ => callStatement tokens name) (Reader.callNamed name) :=
  position_steady.bind fun _ => advance_steady.bind fun _ => (symbol_steady _).bind fun _ =>
    (symbol_steady _).bind fun _ => (symbol_steady _).bind fun _ => pure_steady _

theorem callStatement_gives {name : String} (h : c.kind = .ident name) :
    Gives tokens depth (· = depth) c (fun _ => callStatement tokens name)
      (Reader.callStatement c) := by
  have hname : Reader.identifier c = .ok (name, c.advance) := Reader.identifier_eq_ok.2 ⟨h, rfl⟩
  have hread : Reader.callStatement c = Reader.callNamed name c := by
    change (Reader.identifier c).bind _ = _
    rw [hname]
    rfl
  rw [hread]
  exact callStatement_steady name c

section Statements
variable {b : Mover (List Statement)} {l m : Mover Statement} {n : Nat}

theorem repeatStatement_steady (hb : Steady tokens depth (block tokens) b.read) :
    Steady tokens depth (repeatStatement tokens) (Reader.repeatStatement b) := by
  refine Steady.succ ?_
  simp only [repeatStatement]
  exact position_steady.bind fun _ => (keyword_steady _).bind fun _ => (symbol_steady _).bind
    fun _ => count_steady.bind fun _ => (symbol_steady _).bind fun _ => hb.bind fun _ =>
      pure_steady _

theorem whileStatement_steady (hc : Steady tokens depth (condition tokens) (Reader.condition n))
    (hb : Steady tokens depth (block tokens) b.read) :
    Steady tokens depth (whileStatement tokens) (Reader.whileStatement n b) := by
  refine Steady.succ ?_
  simp only [whileStatement]
  exact position_steady.bind fun _ => (keyword_steady _).bind fun _ => (symbol_steady _).bind
    fun _ => hc.bind fun _ => (symbol_steady _).bind fun _ => hb.bind fun _ => pure_steady _

theorem ifStatement_steady (hc : Steady tokens depth (condition tokens) (Reader.condition n))
    (hb : Steady tokens depth (block tokens) b.read)
    (hl : Steady tokens depth (fun n => nested tokens (ifStatement tokens n)) l.read) :
    Steady tokens depth (ifStatement tokens) (Reader.ifStatement n b l) := by
  refine Steady.succ ?_
  simp only [ifStatement]
  refine position_steady.bind fun _ => (keyword_steady _).bind fun _ => (symbol_steady _).bind
    fun _ => hc.bind fun _ => (symbol_steady _).bind fun _ => hb.bind fun _ => fun c => ?_
  refine Gives.peek fun k _ => ?_
  split
  · refine (advance_steady c).andThen fun _ c _ => Gives.peek fun k _ => ?_
    cases k with
    | symbol s =>
      cases s with
      | openBrace => exact (hb.bind fun _ => pure_steady _) c
      | _ => exact fail_gives _
    | keyword w =>
      cases w with
      | «if» => exact (hl.bind fun _ => pure_steady _) c
      | _ => exact fail_gives _
    | _ => exact fail_gives _
  · exact gives_pure _ rfl

theorem statement_steady (hc : Steady tokens depth (condition tokens) (Reader.condition n))
    (hb : Steady tokens depth (block tokens) b.read)
    (hl : Steady tokens depth (fun n => nested tokens (ifStatement tokens n)) l.read) :
    Steady tokens depth (statement tokens) (Reader.statement n b l) := by
  refine fun c => Gives.succ ?_
  simp only [statement]
  refine Gives.peek fun k hk => ?_
  cases k with
  | ident name => exact callStatement_gives hk
  | keyword w =>
    cases w with
    | «repeat» => exact repeatStatement_steady hb c
    | «if» => exact ifStatement_steady hc hb hl c
    | «while» => exact whileStatement_steady hc hb c
    | void => exact strayVoid_gives
    | «else» => exact fail_gives _
  | _ => exact fail_gives _

theorem statements_steady (hm : Steady tokens depth (statement tokens) m.read)
    (opening : Position) :
    Steady tokens depth (statements tokens · opening) (Reader.statements m opening) := by
  intro c
  -- the statement that is read first leaves fewer tokens for the others
  induction hn : c.remaining using Nat.strong_induction_on generalizing c with
  | _ n ih =>
    refine Gives.succ ?_
    simp only [statements]
    by_cases hbrace : c.kind = .symbol .closeBrace
    · rw [Reader.statements, hbrace]
      refine Gives.look (fun _ => kind_run) ?_
      rw [hbrace]
      exact (advance_steady.bind fun _ => pure_steady _) c
    by_cases heof : c.kind = .eof
    · rw [Reader.statements, heof]
      refine Gives.look (fun _ => kind_run) ?_
      rw [heof]
      exact gives_issue fun _ _ => .of_run rfl
    · rw [Reader.statements_eq_bind hbrace heof]
      refine Gives.look (fun _ => kind_run) ?_
      split
      · contradiction
      · contradiction
      · refine (hm c).andThen fun s c' hread => ?_
        have hlt := m.moves c c' s hread
        have hrest := ih c'.remaining (hn ▸ hlt) c' rfl
        exact hrest.andThen fun ss c'' _ => gives_pure (s :: ss) rfl

theorem braced_steady (hm : Steady tokens depth (statement tokens) m.read) :
    Steady tokens depth (braced tokens) (Reader.braced m) := by
  refine Steady.succ ?_
  simp only [braced]
  exact position_steady.bind fun opening => (symbol_steady _).bind fun _ =>
    statements_steady hm opening

end Statements

theorem block_steady {body : Reader (List Statement)}
    (h : Steady tokens depth (fun n => nested tokens (braced tokens n)) body) :
    Steady tokens depth (block tokens) body := by
  refine Steady.succ ?_
  simp only [block]
  exact h

theorem blocks_steady (tokens : List Token) (n depth : Nat) (h : depth + n = nestingLimit) :
    Steady tokens depth (block tokens) (Level.ofNat n).block.read ∧
      Steady tokens depth (fun n => nested tokens (ifStatement tokens n))
        (Level.ofNat n).elseIf.read := by
  induction n generalizing depth with
  | zero =>
    obtain rfl : depth = nestingLimit := h
    exact ⟨block_steady fun _ => descend_full _, fun _ => descend_full _⟩
  | succ n ih =>
    have hd : depth < nestingLimit := by omega
    obtain ⟨hb, hl⟩ := ih (depth + 1) (by omega)
    have hc := (conditions_steady tokens n (depth + 1) (by omega)).condition
    exact ⟨block_steady (nested_steady hd (braced_steady (statement_steady hc hb hl))),
      nested_steady hd (ifStatement_steady hc hb hl)⟩

/-! ## Programs -/

theorem commandWith_steady (n depth : Nat) (h : depth + n = nestingLimit) :
    Steady tokens depth (command tokens) (Reader.commandWith n) := by
  have hb := (blocks_steady tokens n depth h).1
  exact position_steady.bind fun _ => (keyword_steady _).bind fun _ => identifier_steady.bind
    fun _ => (symbol_steady _).bind fun _ => (symbol_steady _).bind fun _ => hb.bind fun _ =>
      pure_steady _

theorem command_steady : Steady tokens 0 (command tokens) Reader.command :=
  commandWith_steady nestingLimit 0 (Nat.zero_add _)

theorem strayAtTop_gives :
    Gives tokens depth (· = depth) c (fun _ => (strayAtTop tokens : Descent α))
      (.error ⟨Reader.strayAtTop c, c.position⟩) := by
  refine Gives.look (fun _ => kind_run) ?_
  unfold Reader.strayAtTop
  cases c.kind with
  | symbol s =>
    cases s with
    | _ => exact fail_gives _
  | keyword w =>
    cases w with
    | _ => exact fail_gives _
  | ident name =>
    refine Gives.look (fun _ hc => kindAt_run hc 1) (Gives.look (fun _ hc => kindAt_run hc 2)
      (Gives.look (fun _ hc => kindAt_run hc 3) ?_))
    change Gives tokens depth _ c
      (fun _ => if Reader.headsCall c then fail tokens (.callOutsideCommand name)
        else fail tokens (.voidBefore name))
      (.error ⟨if Reader.headsCall c then .callOutsideCommand name else .voidBefore name,
        c.position⟩)
    cases Reader.headsCall c with
    | _ => exact fail_gives _
  | _ => exact fail_gives _

/-- A descent ends with a result or with the diagnostic that is given in its place. All values of
its variables are valid, and after a success it has as many levels open as before. -/
def Ends (tokens : List Token) (t : Trail) (p : Nat → Descent α)
    (result : Except Diagnostic α) : Prop :=
  ∃ t', Halts p t (result.mapError .issue) t' ∧ t'.Sound tokens ∧
    (result.isOk → t'.now.depth = t.now.depth)

theorem Gives.ends {p : Nat → Descent α} {answer : Except Diagnostic (α × Cursor)} {t : Trail}
    (h : Gives tokens t.now.depth (· = t.now.depth) c p answer) (ht : t.Sound tokens)
    (hc : c.IsAt tokens t.now.index) : Ends tokens t p (answer.map Prod.fst) := by
  obtain ⟨result, t', hrun, ht', ha⟩ := h t ht hc rfl
  cases ha with
  | ok hplace hl => exact ⟨t', hrun, ht', fun _ => hl⟩
  | issue hl => exact ⟨t', hrun, ht', fun h => nomatch h⟩

namespace Ends
variable {p : Nat → Descent α} {f : Nat → α → Descent β} {t : Trail}

theorem not_outOfBounds {result : Except Diagnostic α} (h : Ends tokens t p result) (t' : Trail) :
    ¬ Halts p t (.error .outOfBounds) t' := by
  obtain ⟨t'', hrun, -⟩ := h
  intro hout
  have hsame := hrun.unique hout
  cases result with
  | _ => exact nomatch hsame

theorem succ {result : Except Diagnostic α} (h : Ends tokens t (fun n => p (n + 1)) result) :
    Ends tokens t p result := by
  obtain ⟨t', hrun, hrest⟩ := h
  exact ⟨t', hrun.succ, hrest⟩

theorem look {q : Descent α} {a : α} {result : Except Diagnostic β} (hq : q t = some (.ok a, t))
    (h : Ends tokens t (fun n => f n a) result) : Ends tokens t (fun n => q >>= f n) result := by
  obtain ⟨t', hrun, hrest⟩ := h
  exact ⟨t', (Halts.of_run hq).bind hrun, hrest⟩

theorem map {result : Except Diagnostic α} (h : Ends tokens t p result) (g : α → β) :
    Ends tokens t (fun n => p n >>= fun a => pure (g a)) (result.map g) := by
  obtain ⟨t', hrun, ht', hd⟩ := h
  cases result with
  | error x => exact ⟨t', hrun.bind_error, ht', fun h => nomatch h⟩
  | ok a => exact ⟨t', hrun.bind (.of_run rfl), ht', fun _ => hd rfl⟩

/-- What follows a steady descent ends if it does so from where the descent comes to. -/
theorem bind {r : Reader α} {result : Except Diagnostic β} (hp : Steady tokens t.now.depth p r)
    (ht : t.Sound tokens) (hc : c.IsAt tokens t.now.index)
    (herror : ∀ x, r c = .error x → result = .error x)
    (hok : ∀ a c' t', r c = .ok (a, c') → t'.Sound tokens → c'.IsAt tokens t'.now.index →
      t'.now.depth = t.now.depth → Ends tokens t' (fun n => f n a) result) :
    Ends tokens t (fun n => p n >>= f n) result := by
  obtain ⟨first, t', hrun, ht', ha⟩ := hp c t ht hc rfl
  generalize r c = answer at ha herror hok
  cases ha with
  | ok hplace hl =>
    obtain ⟨t'', hrun', ht'', hd⟩ := hok _ _ t' rfl ht' hplace hl
    exact ⟨t'', hrun.bind hrun', ht'', fun h => (hd h).trans hl⟩
  | issue hl =>
    obtain rfl := herror _ rfl
    exact ⟨t', hrun.bind_error, ht', fun h => nomatch h⟩

end Ends

theorem commands_ends {t : Trail} (before : List Command) (c : Cursor) (ht : t.Sound tokens)
    (hc : c.IsAt tokens t.now.index) (hd : t.now.depth = 0)
    (hbefore : c.kind = .eof → before ≠ []) :
    Ends tokens t (commands tokens · before) ((Reader.commands c).map (before ++ ·)) := by
  -- a command moves, so that the commands behind it have fewer tokens ahead
  induction hn : c.remaining using Nat.strong_induction_on generalizing before c t with
  | _ n ih =>
    refine Ends.succ ?_
    simp only [commands]
    refine Ends.look (kind_run hc) ?_
    by_cases heof : c.kind = .eof
    · have hread : Reader.commands c = .ok [] := by rw [Reader.commands, heof]
      have hnone : before.isEmpty = false := List.isEmpty_eq_false_iff.2 (hbefore heof)
      have hall : Except.map (before ++ ·) (.ok [] : Except Diagnostic _) = .ok before :=
        congrArg Except.ok (List.append_nil before)
      rw [hread, hall, heof]
      simp only [hnone]
      exact ⟨t, .of_run rfl, ht, fun _ => rfl⟩
    by_cases hvoid : c.kind = .keyword .void
    · have hcommand : Steady tokens t.now.depth (command tokens) Reader.command :=
        hd ▸ command_steady
      rw [hvoid]
      refine Ends.bind hcommand ht hc (fun x hread => ?_) fun a c' t' hread ht' hc' hd' => ?_
      · rw [Reader.commands_of_command_error hvoid hread]
        rfl
      · have hlt := Reader.command_moves c c' a hread
        have hrest := ih c'.remaining (hn ▸ hlt) (before ++ [a]) c' ht' hc' (hd'.trans hd)
          (by simp) rfl
        have hall : (Reader.commands c).map (before ++ ·) =
            (Reader.commands c').map (before ++ [a] ++ ·) := by
          rw [Reader.commands_of_command_ok hvoid hread]
          cases Reader.commands c' with
          | error x => rfl
          | ok others => simp [Except.map]
        rw [hall]
        exact hrest
    · rw [Reader.commands_of_stray heof hvoid]
      split
      · contradiction
      · contradiction
      · exact strayAtTop_gives.ends ht hc

theorem start_sound (h : tokens ≠ []) : start.Sound tokens := by
  intro s hs
  obtain rfl := List.mem_singleton.1 hs
  exact ⟨List.length_pos_iff.2 h, Nat.zero_le _⟩

theorem program_ends_read (c : Cursor) :
    Ends (c.current :: c.rest) start (program (c.current :: c.rest)) (Program.read c) := by
  have hstart : start.Sound (c.current :: c.rest) := start_sound (List.cons_ne_nil _ _)
  have hc : c.IsAt (c.current :: c.rest) start.now.index := rfl
  unfold Program.read
  split
  · rename_i heof
    have hstray : Ends (c.current :: c.rest) start (commands (c.current :: c.rest) · [])
        (.error ⟨Reader.strayAtTop c, c.position⟩) := by
      refine Ends.succ ?_
      simp only [commands]
      refine Ends.look (kind_run hc) ?_
      rw [heof]
      exact strayAtTop_gives.ends hstart hc
    exact hstray.map Program.mk
  · rename_i hne
    have hcommands := commands_ends [] c hstart hc rfl fun heof => absurd heof hne
    have hread : (Reader.commands c).map ([] ++ ·) = Reader.commands c := by
      cases Reader.commands c with
      | _ => rfl
    rw [hread] at hcommands
    exact hcommands.map Program.mk

theorem program_nil : Halts (program []) start (.error .outOfBounds) start := by
  have hkind : kind [] start = some (.error .outOfBounds, start) := rfl
  have hcommands : Halts (commands [] · []) start (.error .outOfBounds) start := by
    refine Halts.succ ?_
    simp only [commands]
    exact (Halts.of_run hkind).bind_error
  exact hcommands.bind_error

/-- The functions of a descent, without its loops. -/
inductive Part (tokens : List Token) : {α : Type} → (Nat → Descent α) → Prop
  | query (name : String) : Part tokens fun _ => query tokens name
  | operand : Part tokens (operand tokens)
  | conjunction : Part tokens (conjunction tokens)
  | condition : Part tokens (condition tokens)
  | count : Part tokens fun _ => count tokens
  | callStatement (name : String) : Part tokens fun _ => callStatement tokens name
  | repeatStatement : Part tokens (repeatStatement tokens)
  | whileStatement : Part tokens (whileStatement tokens)
  | ifStatement : Part tokens (ifStatement tokens)
  | statement : Part tokens (statement tokens)
  | braced : Part tokens (braced tokens)
  | block : Part tokens (block tokens)
  | command : Part tokens (command tokens)

theorem Part.steady {p : Nat → Descent α} (hp : Part tokens p) (hd : depth ≤ nestingLimit) :
    ∃ r, Steady tokens depth p r := by
  have hn : depth + (nestingLimit - depth) = nestingLimit := Nat.add_sub_of_le hd
  have hc := conditions_steady tokens _ depth hn
  obtain ⟨hb, hl⟩ := blocks_steady tokens _ depth hn
  cases hp with
  | query name => exact ⟨_, query_steady name⟩
  | operand => exact ⟨_, hc.operand⟩
  | conjunction => exact ⟨_, hc.conjunction⟩
  | condition => exact ⟨_, hc.condition⟩
  | count => exact ⟨_, count_steady⟩
  | callStatement name => exact ⟨_, callStatement_steady name⟩
  | repeatStatement => exact ⟨_, repeatStatement_steady hb⟩
  | whileStatement => exact ⟨_, whileStatement_steady hc.condition hb⟩
  | ifStatement => exact ⟨_, ifStatement_steady hc.condition hb hl⟩
  | statement => exact ⟨_, statement_steady hc.condition hb hl⟩
  | braced =>
    have hm := statement_steady hc.condition hb hl
    exact ⟨_, braced_steady (m := ⟨_, Reader.statement_moves _ _ _⟩) hm⟩
  | block => exact ⟨_, hb⟩
  | command => exact ⟨_, commandWith_steady _ depth hn⟩

/-- Reading with an index and a counter ends on every list of tokens. Without any token it asks for
a token that is not there; in no other case does it do so. Otherwise it ends as `Program.ofTokens?`
says, with a program or a diagnostic, and until then its index is the index of a token and its
counter at most `nestingLimit`. So does every function that it consists of, wherever it starts, and
after a success the counter is what it was. -/
theorem program_ends (tokens : List Token) :
    ((∃ t, Halts (program tokens) start (.error .outOfBounds) t) ↔ tokens = []) ∧
      (tokens ≠ [] → ∃ result, Program.ofTokens? tokens = some result ∧
        Ends tokens start (program tokens) result) ∧
      ∀ {α : Type} (p : Nat → Descent α), Part tokens p → ∀ t : Trail, t.Sound tokens →
        ∃ result, Ends tokens t p result := by
  refine ⟨⟨?_, ?_⟩, ?_, ?_⟩
  · rintro ⟨t, hout⟩
    cases tokens with
    | nil => rfl
    | cons u us =>
      exact absurd hout ((program_ends_read ⟨u, us⟩).not_outOfBounds t)
  · rintro rfl
    exact ⟨start, program_nil⟩
  · intro hne
    cases tokens with
    | nil => contradiction
    | cons u us => exact ⟨_, rfl, program_ends_read ⟨u, us⟩⟩
  · intro α p hp t ht
    obtain ⟨r, hr⟩ := hp.steady ht.now.2
    obtain ⟨c, hc⟩ := Cursor.exists_isAt ht.now.1
    exact ⟨_, (hr c).ends ht hc⟩

/-- A `!` with nothing after it, which is read again on each level. -/
def lastNegation : List Token :=
  [⟨.keyword .void, ⟨1, 1⟩⟩, ⟨.ident "main", ⟨1, 6⟩⟩, ⟨.symbol .openParen, ⟨1, 10⟩⟩,
    ⟨.symbol .closeParen, ⟨1, 11⟩⟩, ⟨.symbol .openBrace, ⟨1, 13⟩⟩, ⟨.keyword .while, ⟨1, 15⟩⟩,
    ⟨.symbol .openParen, ⟨1, 21⟩⟩, ⟨.symbol .bang, ⟨1, 22⟩⟩]

theorem read_lastNegation :
    Program.ofTokens? lastNegation = some (.error ⟨.tooDeep, ⟨1, 22⟩⟩) := by
  have hissue : (Program.ofTokens? lastNegation).map (Except.map fun _ => ()) =
      some (.error ⟨.tooDeep, ⟨1, 22⟩⟩) := by decide +kernel
  obtain ⟨result, hread, hresult⟩ := Option.map_eq_some_iff.1 hissue
  cases result with
  | ok p => cases hresult
  | error x =>
    cases hresult
    exact hread

theorem lastNegation_ends :
    lastNegation ≠ [] ∧
      Ends lastNegation start (program lastNegation) (.error ⟨.tooDeep, ⟨1, 22⟩⟩) ∧
      Part lastNegation (operand lastNegation) ∧ Trail.Sound lastNegation ⟨⟨7, 1⟩, []⟩ ∧
      ∃ result, Ends lastNegation ⟨⟨7, 1⟩, []⟩ (operand lastNegation) result := by
  have hne : lastNegation ≠ [] := List.cons_ne_nil _ _
  have hsound : Trail.Sound lastNegation ⟨⟨7, 1⟩, []⟩ := by
    simp [Trail.Sound, Stand.Valid, lastNegation, nestingLimit]
  obtain ⟨-, hends, hpart⟩ := program_ends lastNegation
  obtain ⟨result, hresult, hprogram⟩ := hends hne
  obtain rfl := Option.some.inj (read_lastNegation.symm.trans hresult)
  exact ⟨hne, hprogram, .operand, hsound, hpart _ .operand _ hsound⟩

end Descent
end Karel
