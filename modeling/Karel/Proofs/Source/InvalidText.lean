import Karel.Proofs.Source.ProgramGrammar
import Karel.Proofs.Source.Honest
import Mathlib.Data.List.Nodup

/-! # How invalid text is reported

A token of text that is none of the language's carries its own message. No reader goes on over such
a token, so a program with one is refused; and where a reader stops at one, it passes the message
on. There is one exception: behind an `else` the reader only asks for a block or an `if`, and says
that one of them is missing whatever stands there.
-/
namespace Karel

open Cursor

namespace Reader

variable {α β : Type}

/-! ## Conditions -/

theorem query_honestAt (name : String) : (query name).HonestAt (.ident name) := by
  unfold query
  split
  · exact position_honestAt fun _ => (advance_honestAt (by simp [Passable])).bind fun _ =>
      (symbol_honest _).bind fun _ => (symbol_honest _).bind fun _ => pure_honest _
  · exact fail_honestAt (by simp) _

theorem operandWith_honest {negated grouped : Reader Condition} (hn : negated.Honest)
    (hg : grouped.Honest) : (operandWith negated grouped).Honest := by
  refine peek_honest fun k => ?_
  split
  · exact (advance_honestAt (by simp [Passable])).bind fun _ => hn.bind fun _ => pure_honest _
  · exact (advance_honestAt (by simp [Passable])).bind fun _ => hg.bind fun _ =>
      (symbol_honest _).bind fun _ => pure_honest _
  · exact query_honestAt _
  · exact fail_invalidText_honestAt _
  · exact missing_honest _ _

theorem tailWith_honest {operator : Symbol} {left : Condition} {more : Reader Condition}
    (hm : more.Honest) : (tailWith operator left more).Honest := by
  refine peek_honest fun k => ?_
  split
  · next hk =>
    subst hk
    exact (advance_honestAt (by simp [Passable])).bind fun _ => hm
  · exact pure_honest _ _

theorem levels_honest (n : Nat) :
    (operand n).Honest ∧ (∀ left, (conjunctionTail n left).Honest) ∧
      ∀ left, (conditionTail n left).Honest := by
  induction n with
  | zero =>
    refine ⟨?_, fun left => ?_, fun left => ?_⟩
    · exact operandWith_honest tooDeep_honest tooDeep_honest
    · exact tailWith_honest tooDeep_honest
    · exact tailWith_honest tooDeep_honest
  | succ n ih =>
    obtain ⟨ho, hc, hd⟩ := ih
    refine ⟨?_, fun left => ?_, fun left => ?_⟩
    · exact operandWith_honest ho (ho.bind fun _ => (hc _).bind fun _ => hd _)
    · exact tailWith_honest (ho.bind fun _ => hc _)
    · exact tailWith_honest (ho.bind fun _ => (hc _).bind fun _ => hd _)

theorem condition_honest (n : Nat) : (condition n).Honest := by
  obtain ⟨ho, hc, hd⟩ := levels_honest n
  exact (ho.bind fun _ => hc _).bind fun _ => hd _

/-! ## Statements -/

theorem callStatement_honest : callStatement.Honest :=
  position_honest fun _ => identifier_honest.bind fun _ => (symbol_honest _).bind fun _ =>
    (symbol_honest _).bind fun _ => (symbol_honest _).bind fun _ => pure_honest _

theorem repeatStatement_honest {block : Mover (List Statement)} (hb : block.read.Honest) :
    (repeatStatement block).Honest :=
  position_honest fun _ => (keyword_honest (by decide)).bind fun _ =>
    (symbol_honest _).bind fun _ => count_honest.bind fun _ => (symbol_honest _).bind fun _ =>
      hb.bind fun _ => pure_honest _

theorem whileStatement_honest (n : Nat) {block : Mover (List Statement)}
    (hb : block.read.Honest) : (whileStatement n block).Honest :=
  position_honest fun _ => (keyword_honest (by decide)).bind fun _ =>
    (symbol_honest _).bind fun _ => (condition_honest n).bind fun _ =>
      (symbol_honest _).bind fun _ => hb.bind fun _ => pure_honest _

/-- What `HonestAt` says of a reader behind an `else`, for the tokens from the `else` on. -/
structure HonestBehindElse (k : Token.Kind) (r : Reader α) : Prop where
  ok : ∀ ⦃c a d⦄, c.Ended → c.kind = k → r c = .ok (a, d) → ∀ p,
    ∃ ts, push ⟨.keyword .else, p⟩ c = unread ts d ∧ d.Ended ∧ Readable ts
  error : ∀ ⦃c diag⦄, c.Ended → c.kind = k → r c = .error diag → ∀ p,
    ∃ ts d, push ⟨.keyword .else, p⟩ c = unread ts d ∧ diag.Blames ts d

theorem HonestBehindElse.advance {r : Reader α} (h : ∀ k, r.HonestBehindElse k) :
    (do advance; r).HonestAt (.keyword .else) := by
  constructor
  · intro c a d hc hk hr
    obtain ⟨p, hpush, hend⟩ := hc.advance hk (by simp)
    rw [hpush]
    exact (h _).ok hend rfl hr p
  · intro c diag hc hk hr
    obtain ⟨p, hpush, hend⟩ := hc.advance hk (by simp)
    rw [hpush]
    exact (h _).error hend rfl hr p

theorem peek_honestBehindElse {f : Token.Kind → Reader β} (h : ∀ k, (f k).HonestBehindElse k)
    (k : Token.Kind) : (peek >>= f).HonestBehindElse k := by
  constructor
  · rintro c b d hc rfl hr
    exact (h c.kind).ok hc rfl hr
  · rintro c diag hc rfl hr
    exact (h c.kind).error hc rfl hr

/-- A reader that moves has read something, so the `else` is not the last token read. -/
theorem mover_honestBehindElse {m : Mover α} (hm : m.read.Honest) (f : α → β) {k : Token.Kind}
    (hk : ∀ message, k ≠ .invalid message) :
    (do let a ← m.read; return f a).HonestBehindElse k := by
  constructor
  · intro c b d hc hck h p
    obtain ⟨a, e, ha, hb⟩ := bind_eq_ok.1 h
    cases hb
    obtain ⟨ts, rfl, hd, hts⟩ := (hm _).ok hc hck ha
    refine ⟨[⟨.keyword .else, p⟩] ++ ts, rfl, hd, ?_, fun he => ?_⟩
    · exact List.forall_mem_append.2 ⟨by simp [Token.IsInvalid], hts.valid⟩
    rcases endsInElse_append.1 he with he | ⟨rfl, -⟩
    · exact hts.noElse he
    · exact absurd (m.moves _ _ _ ha) (Nat.lt_irrefl _)
  · intro c diag hc hck h p
    rcases bind_eq_error.1 h with h | ⟨a, e, -, hpure⟩
    · obtain ⟨ts, d, rfl, hb⟩ := (hm _).error hc hck h
      refine ⟨[⟨.keyword .else, p⟩] ++ ts, d, rfl, hb.append ?_⟩
      rintro - rfl
      exact not_isInvalid hck hk
    · cases hpure

theorem danglingElse_honestBehindElse (k : Token.Kind) :
    (fail .danglingElse : Reader α).HonestBehindElse k := by
  constructor
  · intro c a d hc hk h p
    cases h
  · intro c diag hc hk h p
    cases h
    exact ⟨[⟨.keyword .else, p⟩], c, rfl, .dangling (endsInElse_singleton.2 rfl)⟩

theorem elsePart_honest {block : Mover (List Statement)} {elseIf : Mover Statement}
    (hb : block.read.Honest) (he : elseIf.read.Honest) (cond : Condition) (yes : List Statement)
    (p : Position) : (elsePart block elseIf cond yes p).Honest := by
  refine peek_honest fun k => ?_
  split
  · next hk =>
    subst hk
    refine HonestBehindElse.advance (peek_honestBehindElse fun k => ?_)
    split
    · exact mover_honestBehindElse hb _ (by simp)
    · exact mover_honestBehindElse he _ (by simp)
    · exact danglingElse_honestBehindElse _
  · exact pure_honest _ _

theorem ifStatement_honest (n : Nat) {block : Mover (List Statement)} {elseIf : Mover Statement}
    (hb : block.read.Honest) (he : elseIf.read.Honest) : (ifStatement n block elseIf).Honest :=
  position_honest fun _ => (keyword_honest (by decide)).bind fun _ =>
    (symbol_honest _).bind fun _ => (condition_honest n).bind fun _ =>
      (symbol_honest _).bind fun _ => hb.bind fun _ => elsePart_honest hb he _ _ _

theorem statement_honest (n : Nat) {block : Mover (List Statement)} {elseIf : Mover Statement}
    (hb : block.read.Honest) (he : elseIf.read.Honest) : (statement n block elseIf).Honest := by
  refine peek_honest fun k => ?_
  split
  · exact callStatement_honest _
  · exact repeatStatement_honest hb _
  · exact ifStatement_honest n hb he _
  · exact whileStatement_honest n hb _
  · apply honestAt_of_error
    intro c hk
    exact ⟨_, rfl, .valid (not_isInvalid hk (by simp))⟩
  · exact fail_honestAt (by simp) _
  · exact fail_invalidText_honestAt _
  · next found _ _ _ _ _ _ hk => exact fail_honestAt (by simpa using hk) _

/-- The brace that opened the block stands before the statements in it. -/
theorem statements_honest_error {mover : Mover Statement} (hm : mover.read.Honest)
    {opening : Position} {c : Cursor} {diag : Diagnostic} (hc : c.Ended)
    (h : statements mover opening c = .error diag) :
    ∃ ts d, c = unread ts d ∧ (diag = ⟨.unclosedBlock, opening⟩ ∨ diag.Blames ts d) := by
  fun_induction statements mover opening c generalizing diag with
  | case1 => cases h
  | case2 c hk =>
    cases h
    exact ⟨[], c, rfl, .inl rfl⟩
  | case3 c diag' hread _ _ =>
    cases h
    obtain ⟨ts, d, hts, hb⟩ := (hm _).error hc rfl hread
    exact ⟨ts, d, hts, .inr hb⟩
  | case4 c s c' hread hlt diag' herror _ _ ih =>
    cases h
    obtain ⟨ts, rfl, hend, hts⟩ := (hm _).ok hc rfl hread
    obtain ⟨us, d, rfl, hb⟩ := ih hend herror
    refine ⟨ts ++ us, d, (unread_append ts us d).symm, hb.imp_right fun hb => ?_⟩
    exact hb.append fun he _ => absurd he hts.noElse
  | case5 => cases h

theorem statements_honest_ok {mover : Mover Statement} (hm : mover.read.Honest)
    {opening : Position} {c d : Cursor} {ss : List Statement} (hc : c.Ended)
    (h : statements mover opening c = .ok (ss, d)) :
    ∃ ts, c = unread ts d ∧ d.Ended ∧ Readable ts := by
  fun_induction statements mover opening c generalizing ss d with
  | case1 c hk =>
    cases h
    exact ended_advance hc (by simp [Passable, hk])
  | case2 => cases h
  | case3 => cases h
  | case4 => cases h
  | case5 c s c' hread hlt ss' c'' hss _ _ ih =>
    cases h
    obtain ⟨ts, rfl, hend, hts⟩ := (hm _).ok hc rfl hread
    obtain ⟨us, rfl, hd, hus⟩ := ih hend hss
    exact ⟨ts ++ us, (unread_append ts us _).symm, hd, hts.append hus⟩

theorem braced_honest {mover : Mover Statement} (hm : mover.read.Honest) :
    (braced mover).Honest := by
  intro k
  constructor
  · intro c ss d hc hk h
    rw [braced, position_bind] at h
    obtain ⟨_, e, hs, h⟩ := bind_eq_ok.1 h
    obtain ⟨ts, rfl, hend, hts⟩ := (symbol_honest _ _).ok hc hk hs
    obtain ⟨us, rfl, hd, hus⟩ := statements_honest_ok hm hend h
    exact ⟨ts ++ us, (unread_append ts us d).symm, hd, hts.append hus⟩
  · intro c diag hc hk h
    rw [braced, position_bind] at h
    rcases bind_eq_error.1 h with h | ⟨_, e, hs, h⟩
    · exact (symbol_honest _ _).error hc hk h
    · obtain ⟨hkind, rfl⟩ := symbol_eq_ok.1 hs
      obtain ⟨p, hp, hend⟩ := hc.advance hkind (by simp)
      have hpos : c.position = p := by rw [hp]; rfl
      have hopen : Readable [⟨.symbol .openBrace, p⟩] :=
        .singleton (by simp [Token.IsInvalid]) (by simp)
      obtain ⟨ts, d, hts, hb⟩ := statements_honest_error hm hend h
      refine ⟨[⟨.symbol .openBrace, p⟩] ++ ts, d, ?_, ?_⟩
      · rw [unread_append, ← hts]
        exact hp
      · rcases hb with rfl | hb
        · rw [hpos]
          exact .unclosed List.mem_cons_self
        · exact hb.append fun he _ => absurd he hopen.noElse

theorem level_honest (n : Nat) :
    (Level.ofNat n).block.read.Honest ∧ (Level.ofNat n).elseIf.read.Honest := by
  induction n with
  | zero => exact ⟨tooDeep_honest, tooDeep_honest⟩
  | succ n ih =>
    obtain ⟨hb, he⟩ := ih
    exact ⟨braced_honest (statement_honest n hb he), ifStatement_honest n hb he⟩

/-! ## Programs -/

theorem command_honest : command.Honest :=
  position_honest fun _ => (keyword_honest (by decide)).bind fun _ =>
    identifier_honest.bind fun _ => (symbol_honest _).bind fun _ => (symbol_honest _).bind fun _ =>
      (level_honest _).1.bind fun _ => pure_honest _

theorem strayAtTop_blames (c : Cursor) : Diagnostic.Blames [] c ⟨strayAtTop c, c.position⟩ := by
  by_cases hk : c.current.IsInvalid
  · obtain ⟨message, hm⟩ := hk
    have hm : c.kind = .invalid message := hm
    rw [strayAtTop, hm]
    exact .invalid hm not_endsInElse_nil
  · exact .valid hk

theorem commands_valid {c : Cursor} {cs : List Command} (hc : c.Ended) (h : commands c = .ok cs) :
    ∀ t ∈ c.current :: c.rest, ¬ t.IsInvalid := by
  fun_induction commands c generalizing cs with
  | case1 c hk =>
    cases hc with
    | last ht =>
      have hlast := not_isInvalid hk (by simp)
      exact List.forall_mem_cons.2 ⟨hlast, by simp⟩
    | push ht hd => exact absurd hk ht
  | case2 => cases h
  | case3 => cases h
  | case4 c hk first c' hread hlt others hothers ih =>
    obtain ⟨ts, rfl, hend, hts⟩ := (command_honest _).ok hc rfl hread
    rw [tokens_unread]
    exact List.forall_mem_append.2 ⟨hts.valid, ih hend hothers⟩
  | case5 => cases h

theorem commands_blames {c : Cursor} {diag : Diagnostic} (hc : c.Ended)
    (h : commands c = .error diag) :
    ∃ ts d, c = unread ts d ∧ diag.Blames ts d := by
  fun_induction commands c generalizing diag with
  | case1 => cases h
  | case2 c hk diag' hread =>
    cases h
    exact (command_honest _).error hc rfl hread
  | case3 c hk first c' hread hlt diag' herror ih =>
    cases h
    obtain ⟨ts, rfl, hend, hts⟩ := (command_honest _).ok hc rfl hread
    obtain ⟨us, d, rfl, hb⟩ := ih hend herror
    have happ := hb.append fun he _ => absurd he hts.noElse
    exact ⟨ts ++ us, d, (unread_append ts us d).symm, happ⟩
  | case4 => cases h
  | case5 c _ _ =>
    cases h
    exact ⟨[], c, rfl, strayAtTop_blames c⟩

end Reader

namespace Program

open Reader Grammar

theorem read_blames {c : Cursor} {diag : Diagnostic} (hc : c.Ended) (h : read c = .error diag) :
    ∃ ts d, c = unread ts d ∧ diag.Blames ts d := by
  rcases read_eq_error.1 h with ⟨-, rfl⟩ | ⟨-, hcs⟩
  · exact ⟨[], c, rfl, strayAtTop_blames c⟩
  · exact commands_blames hc hcs

theorem read_ne_ok {c : Cursor} (hc : c.Ended) {t : Token} (ht : t ∈ c.current :: c.rest)
    (hinvalid : t.IsInvalid) (p : Program) : read c ≠ .ok p := by
  intro h
  obtain ⟨-, hcs⟩ := read_eq_ok.1 h
  exact commands_valid hc hcs t ht hinvalid

/-- If the blame is on an invalid token, then it is for what the token says, unless an `else` stands
right before it. -/
theorem blames_invalid {ts before after : List Token} {d : Cursor} {diag : Diagnostic}
    {message : String} {p : Position}
    (hsplit : ts ++ d.current :: d.rest = before ++ ⟨.invalid message, p⟩ :: after)
    (hpos : ((ts ++ d.current :: d.rest).map Token.position).Nodup) (hb : diag.Blames ts d)
    (hp : diag.position = p) (hcode : diag.issue.code ≠ "P006") :
    diag.issue = if EndsInElse before then .danglingElse else .invalidText message := by
  have hmem : (⟨.invalid message, p⟩ : Token) ∈ ts ++ d.current :: d.rest := by
    rw [hsplit]
    simp
  -- Tokens in places of their own are told apart by their places.
  have hinj : ∀ t ∈ ts ++ d.current :: d.rest, t.position = p → t = ⟨.invalid message, p⟩ :=
    fun t ht h => List.inj_on_of_nodup_map hpos ht hmem h
  have hcurrent : d.position = p → ts = before ∧ d.current = ⟨.invalid message, p⟩ := by
    intro h
    have ht := hinj d.current (by simp) h
    have hnodup := hpos.of_map
    rw [ht] at hsplit hnodup
    rw [List.nodup_append, List.nodup_cons] at hnodup
    have hnot : (⟨.invalid message, p⟩ : Token) ∉ ts := by
      intro hts
      exact hnodup.2.2 _ hts _ List.mem_cons_self rfl
    exact ⟨((List.append_cons_inj_of_notMem hnot hnodup.2.1.1).1 hsplit).1, ht⟩
  cases hb with
  | tooDeep => exact absurd rfl hcode
  | unclosed h => cases hinj _ (List.mem_append_left _ h) hp
  | dangling h =>
    obtain ⟨rfl, -⟩ := hcurrent hp
    rw [if_pos h]
  | invalid hk h =>
    obtain ⟨rfl, ht⟩ := hcurrent hp
    rw [Cursor.kind, ht] at hk
    cases hk
    rw [if_neg h]
  | valid hk =>
    rw [(hcurrent hp).2] at hk
    exact absurd ⟨message, rfl⟩ hk

/-- Tokens of which one is invalid are refused. If an invalid token is blamed, and not for the depth
of the nesting, then the report is what that token says, but behind an `else` it is only that the
`else` has nothing to govern. -/
theorem invalid_text_reported_unless_behind_else {body : List Token} {last : Token}
    (hlast : last.kind = .eof) (hbody : ∀ t ∈ body, t.kind ≠ .eof)
    (hpos : ((body ++ [last]).map Token.position).Nodup) :
    ((∃ t ∈ body, t.IsInvalid) → ∃ d, ofTokens? (body ++ [last]) = some (.error d)) ∧
      ∀ d before message p after, ofTokens? (body ++ [last]) = some (.error d) →
        body = before ++ ⟨.invalid message, p⟩ :: after → d.position = p →
        d.issue.code ≠ "P006" →
          (EndsInElse before → d.issue = .danglingElse) ∧
            (¬ EndsInElse before → d.issue.code = "L001" ∧ d.issue.message = message) := by
  have hended : (unread body ⟨last, []⟩).Ended := .unread hbody (.last hlast)
  have htokens := tokens_unread body ⟨last, []⟩
  rw [ofTokens?_append]
  constructor
  · rintro ⟨t, ht, hinvalid⟩
    cases hr : read (unread body ⟨last, []⟩) with
    | error d => exact ⟨d, rfl⟩
    | ok p =>
      refine absurd hr (read_ne_ok hended (t := t) ?_ hinvalid p)
      rw [htokens]
      exact List.mem_append_left _ ht
  · intro d before message p after hr hsplit hp hcode
    obtain ⟨ts, e, he, hb⟩ := read_blames hended (Option.some_inj.1 hr)
    rw [he, tokens_unread] at htokens
    have htail : ts ++ e.current :: e.rest =
        before ++ ⟨.invalid message, p⟩ :: (after ++ [last]) := by
      rw [htokens, hsplit, List.append_assoc, List.cons_append]
    have hissue := blames_invalid htail (by rwa [htokens]) hb hp hcode
    constructor
    · intro helse
      rw [hissue, if_pos helse]
    · intro helse
      rw [hissue, if_neg helse]
      exact ⟨rfl, rfl⟩

/-- The tokens of `void @` without the end of file. -/
def namelessTokens : List Token :=
  [⟨.keyword .void, ⟨1, 1⟩⟩, ⟨.invalid "unexpected character `@`", ⟨1, 6⟩⟩]

theorem read_namelessTokens :
    ofTokens? (namelessTokens ++ [⟨.eof, ⟨1, 7⟩⟩]) =
      some (.error ⟨.invalidText "unexpected character `@`", ⟨1, 6⟩⟩) :=
  congrArg some (read_of_command_error rfl rfl)

theorem namelessTokens_reported :
    ∃ d, ofTokens? (namelessTokens ++ [⟨.eof, ⟨1, 7⟩⟩]) = some (.error d) ∧
      d.position = ⟨1, 6⟩ ∧ d.issue.code = "L001" ∧
      d.issue.message = "unexpected character `@`" := by
  have hreport := (invalid_text_reported_unless_behind_else rfl (by decide) (by decide)).2 _
    [⟨.keyword .void, ⟨1, 1⟩⟩] _ _ [] read_namelessTokens rfl rfl (by decide)
  exact ⟨_, read_namelessTokens, rfl, hreport.2 (by decide)⟩

/-- The tokens of `void main() { if (onBeeper()) { } else @ }` without the end of file. -/
def danglingTokens : List Token :=
  [⟨.keyword .void, ⟨1, 1⟩⟩, ⟨.ident "main", ⟨1, 6⟩⟩, ⟨.symbol .openParen, ⟨1, 10⟩⟩,
    ⟨.symbol .closeParen, ⟨1, 11⟩⟩, ⟨.symbol .openBrace, ⟨1, 13⟩⟩, ⟨.keyword .if, ⟨1, 15⟩⟩,
    ⟨.symbol .openParen, ⟨1, 18⟩⟩, ⟨.ident "onBeeper", ⟨1, 19⟩⟩, ⟨.symbol .openParen, ⟨1, 27⟩⟩,
    ⟨.symbol .closeParen, ⟨1, 28⟩⟩, ⟨.symbol .closeParen, ⟨1, 29⟩⟩,
    ⟨.symbol .openBrace, ⟨1, 31⟩⟩, ⟨.symbol .closeBrace, ⟨1, 33⟩⟩, ⟨.keyword .else, ⟨1, 35⟩⟩,
    ⟨.invalid "unexpected character `@`", ⟨1, 40⟩⟩, ⟨.symbol .closeBrace, ⟨1, 42⟩⟩]

example : tokenize "void main() \x7b if (onBeeper()) \x7b \x7d else @ \x7d" =
    danglingTokens ++ [⟨.eof, ⟨1, 43⟩⟩] := by cbv

theorem read_danglingTokens :
    ofTokens? (danglingTokens ++ [⟨.eof, ⟨1, 43⟩⟩]) = some (.error ⟨.danglingElse, ⟨1, 40⟩⟩) := by
  have hcond : IsCondition 63 [⟨.ident "onBeeper", ⟨1, 19⟩⟩, ⟨.symbol .openParen, ⟨1, 27⟩⟩,
      ⟨.symbol .closeParen, ⟨1, 28⟩⟩] (.query .onBeeper ⟨1, 19⟩) :=
    ⟨63, .one (.one (.query (Query.ofName?_name .onBeeper) _ _ _))⟩
  have hblock : IsBlock 63 [⟨.symbol .openBrace, ⟨1, 31⟩⟩, ⟨.symbol .closeBrace, ⟨1, 33⟩⟩] [] :=
    .braces ⟨1, 31⟩ ⟨1, 33⟩ .nil
  have hif : (inner 63).read (unread (danglingTokens.drop 5) ⟨⟨.eof, ⟨1, 43⟩⟩, []⟩) =
      .error ⟨.danglingElse, ⟨1, 40⟩⟩ :=
    ifStatement_push hcond ⟨1, 15⟩ ⟨1, 18⟩ ⟨1, 29⟩ (read_block hblock _)
  have hbody : statements (inner 63) ⟨1, 13⟩
      (unread (danglingTokens.drop 5) ⟨⟨.eof, ⟨1, 43⟩⟩, []⟩) = .error ⟨.danglingElse, ⟨1, 40⟩⟩ := by
    rw [statements_eq_bind (by decide) (by decide)]
    exact bind_eq_error.2 (.inl hif)
  have hcommand : command (unread danglingTokens ⟨⟨.eof, ⟨1, 43⟩⟩, []⟩) =
      .error ⟨.danglingElse, ⟨1, 40⟩⟩ := command_of_block_error hbody
  exact congrArg some (read_of_command_error rfl hcommand)

/-- An invalid token behind an `else` is blamed, but what it says is lost. -/
theorem invalid_text_lost_behind_else :
    ¬ ∀ (body : List Token) (last : Token), last.kind = .eof → (∀ t ∈ body, t.kind ≠ .eof) →
      ((body ++ [last]).map Token.position).Nodup →
        ∀ d before message p after, ofTokens? (body ++ [last]) = some (.error d) →
          body = before ++ ⟨.invalid message, p⟩ :: after → d.position = p →
          d.issue.code ≠ "P006" → d.issue.code = "L001" ∧ d.issue.message = message := by
  intro h
  have hreport := h danglingTokens ⟨.eof, ⟨1, 43⟩⟩ rfl (by decide) (by decide) _
    (danglingTokens.take 14) _ _ [⟨.symbol .closeBrace, ⟨1, 42⟩⟩] read_danglingTokens rfl rfl
    (by decide)
  exact absurd hreport.1 (by decide)

end Program
end Karel
