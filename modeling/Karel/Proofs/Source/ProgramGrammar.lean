import Karel.Proofs.Source.StatementGrammar

/-! # The programs that are read are those of the grammar

With an end of file behind them, the tokens of a program of the grammar are read as its tree, and no
others are read at all.
-/
namespace Karel
namespace Reader

open Cursor Grammar

theorem command_sound : command.Sound (IsCommand nestingLimit) := by
  have hb := (level_sound nestingLimit).1
  refine position_keyword_sound fun p => identifier_sound fun name => ?_
  refine symbol_sound (symbol_sound (hb.bind fun body => pure_sound ?_))
  intro ts hts p₃ p₂ p₁
  rw [List.append_nil]
  exact .void name p p₁ p₂ p₃ hts

theorem commands_sound {c : Cursor} {cs : List Command} (hc : c.Closed)
    (h : commands c = .ok cs) :
    ∃ ts t, t.kind = .eof ∧ c = unread ts ⟨t, []⟩ ∧ AreCommands nestingLimit ts cs := by
  fun_induction commands c generalizing cs with
  | case1 c hk =>
    cases h
    cases hc with
    | @last t ht => exact ⟨[], t, ht, rfl, .nil⟩
    | push ht hn hd => exact absurd hk ht
  | case2 => cases h
  | case3 => cases h
  | case4 c hk first c' hread hlt others hothers ih =>
    cases h
    obtain ⟨ts, hts, hc', hfirst⟩ := command_sound.ok hc hread
    obtain ⟨us, t, ht, rfl, hus⟩ := ih hc' hothers
    exact ⟨ts ++ us, t, ht, by rw [hts, unread_append], .cons hfirst hus⟩
  | case5 => cases h

theorem read_commandWith {n : Nat} {ts : List Token} {a : Command} (h : IsCommand n ts a)
    (d : Cursor) : commandWith n (unread ts d) = .ok (a, d) := by
  cases h with
  | void name p p₁ p₂ p₃ hb =>
    have hr := read_block hb d
    simp only [unread_cons]
    rw [commandWith, position_bind, keyword_bind, identifier_bind, symbol_bind, symbol_bind,
      bind_of_ok hr]
    rfl

theorem opens_command {n : Nat} {ts : List Token} {a : Command} (h : IsCommand n ts a)
    (d : Cursor) : (unread ts d).kind = .keyword .void := by
  cases h
  rfl

/-- After a command come the commands behind it. -/
theorem commands_of_command_ok {c c' : Cursor} {a : Command} (hk : c.kind = .keyword .void)
    (h : command c = .ok (a, c')) : commands c = (commands c').map (a :: ·) := by
  rw [commands]
  split
  · next he => cases hk.symm.trans he
  · split
    · next he => cases h.symm.trans he
    · next he =>
      cases h.symm.trans he
      cases commands c' with
      | error diag => rfl
      | ok others => rfl
  · next hne => exact absurd hk hne

theorem read_commands {ts : List Token} {cs : List Command} (h : AreCommands nestingLimit ts cs)
    {t : Token} (ht : t.kind = .eof) : commands (unread ts ⟨t, []⟩) = .ok cs := by
  induction h with
  | nil =>
    have hk : (unread [] ⟨t, []⟩).kind = .eof := ht
    rw [commands, hk]
  | @cons ts us a as h hs ih =>
    have hk := opens_command h (unread us ⟨t, []⟩)
    have hr := read_commandWith h (unread us ⟨t, []⟩)
    rw [unread_append, commands_of_command_ok hk hr, ih]
    rfl

/-- A command whose body is wrong is wrong in the same way. -/
theorem command_of_block_error {name : String} {p p₁ p₂ p₃ : Position} {c : Cursor}
    {diag : Diagnostic} (h : (Level.ofNat nestingLimit).block.read c = .error diag) :
    command (unread [⟨.keyword .void, p⟩, ⟨.ident name, p₁⟩, ⟨.symbol .openParen, p₂⟩,
      ⟨.symbol .closeParen, p₃⟩] c) = .error diag := by
  simp only [unread_cons, unread_nil]
  rw [command, commandWith, position_bind, keyword_bind, identifier_bind, symbol_bind, symbol_bind]
  exact bind_eq_error.2 (.inl h)

theorem commands_of_command_error {c : Cursor} {diag : Diagnostic} (hk : c.kind = .keyword .void)
    (h : command c = .error diag) : commands c = .error diag := by
  rw [commands]
  split
  · next he => cases hk.symm.trans he
  · split
    · next he =>
      cases he.symm.trans h
      rfl
    · next he => cases h.symm.trans he
  · next hne => exact absurd hk hne

theorem commands_of_stray {c : Cursor} (heof : c.kind ≠ .eof) (hvoid : c.kind ≠ .keyword .void) :
    commands c = .error ⟨strayAtTop c, c.position⟩ := by
  rw [commands]
  split
  · next hk => exact absurd hk heof
  · next hk => exact absurd hk hvoid
  · rfl

end Reader

namespace Program

open Cursor Reader Grammar

theorem read_eq_ok {c : Cursor} {p : Program} :
    read c = .ok p ↔ c.kind ≠ .eof ∧ Reader.commands c = .ok p.commands := by
  unfold read
  by_cases hk : c.kind = .eof
  · simp [hk]
  · rw [if_neg hk]
    cases Reader.commands c with
    | error e => simp [Except.map]
    | ok cs =>
      constructor
      · intro he
        cases he
        exact ⟨hk, rfl⟩
      · rintro ⟨-, he⟩
        cases he
        rfl

theorem read_eq_error {c : Cursor} {diag : Diagnostic} :
    read c = .error diag ↔ c.kind = .eof ∧ diag = ⟨strayAtTop c, c.position⟩ ∨
      c.kind ≠ .eof ∧ Reader.commands c = .error diag := by
  unfold read
  by_cases hk : c.kind = .eof
  · simp [hk, eq_comm]
  · rw [if_neg hk]
    cases Reader.commands c with
    | error diag' => simp [hk, Except.map]
    | ok cs => simp [hk, Except.map]

/-- Reading tokens with one more behind them. -/
theorem ofTokens?_append (body : List Token) (last : Token) :
    ofTokens? (body ++ [last]) = some (read (unread body ⟨last, []⟩)) := by
  rw [ofTokens?, ofList?_append]
  rfl

theorem read_of_command_error {c : Cursor} {diag : Diagnostic} (hk : c.kind = .keyword .void)
    (h : command c = .error diag) : read c = .error diag := by
  rw [read, hk, if_neg (by simp), commands_of_command_error hk h]
  rfl

theorem isProgram_of_read {body : List Token} {last : Token} {p : Program}
    (hc : (unread body ⟨last, []⟩).Closed) (h : read (unread body ⟨last, []⟩) = .ok p) :
    IsProgram nestingLimit body p := by
  obtain ⟨hk, hcs⟩ := read_eq_ok.1 h
  obtain ⟨ts, t, ht, he, hts⟩ := commands_sound hc hcs
  have htokens : body ++ [last] = ts ++ [t] := by
    have hbody := tokens_unread body ⟨last, []⟩
    rw [he, tokens_unread] at hbody
    exact hbody.symm
  obtain ⟨rfl, hlast⟩ := List.append_inj' htokens rfl
  refine ⟨?_, hts⟩
  intro hnil
  rw [hnil] at hts
  cases hts
  cases hlast
  exact hk ht

theorem read_of_isProgram {body : List Token} {last : Token} {p : Program}
    (hlast : last.kind = .eof) (h : IsProgram nestingLimit body p) :
    read (unread body ⟨last, []⟩) = .ok p := by
  obtain ⟨commands⟩ := p
  obtain ⟨hne, hcs⟩ := h
  refine read_eq_ok.2 ⟨?_, read_commands hcs hlast⟩
  cases hcs with
  | nil => exact absurd rfl hne
  | cons h hs =>
    rw [unread_append, opens_command h]
    simp

/-- Tokens with one end of file behind them are read as a program exactly if the grammar derives
that program from them, and it derives no other. -/
theorem read_tokens_iff_isProgram {body : List Token} {last : Token} (hlast : last.kind = .eof)
    (hbody : ∀ t ∈ body, t.kind ≠ .eof)
    (hdigits : ∀ t ∈ body, ∀ digits, t.kind = .number digits →
      digits.toList ≠ [] ∧ ∀ c ∈ digits.toList, c.isDigit) :
    (∀ p, ofTokens? (body ++ [last]) = some (.ok p) ↔ IsProgram nestingLimit body p) ∧
      ∀ p p', IsProgram nestingLimit body p → IsProgram nestingLimit body p' → p = p' := by
  have hclosed : (unread body ⟨last, []⟩).Closed := .unread hbody hdigits (.last hlast)
  have hread : ofTokens? (body ++ [last]) = some (read (unread body ⟨last, []⟩)) := by
    rw [ofTokens?, ofList?_append]
    rfl
  constructor
  · intro p
    rw [hread, Option.some_inj]
    exact ⟨isProgram_of_read hclosed, read_of_isProgram hlast⟩
  · intro p p' hp hp'
    have h := read_of_isProgram hlast hp
    rw [read_of_isProgram hlast hp'] at h
    cases h
    rfl

/-- The tokens of
`void f() { while (!onBeeper() && leftIsClear() || onBeeper()) { repeat (03) {} } }`, each in a
column of its own. -/
def loopTokens : List Token :=
  let kinds : List Token.Kind :=
    [.keyword .void, .ident "f", .symbol .openParen, .symbol .closeParen, .symbol .openBrace,
      .keyword .while, .symbol .openParen,
      .symbol .bang, .ident "onBeeper", .symbol .openParen, .symbol .closeParen, .symbol .andAnd,
      .ident "leftIsClear", .symbol .openParen, .symbol .closeParen, .symbol .orOr,
      .ident "onBeeper", .symbol .openParen, .symbol .closeParen, .symbol .closeParen,
      .symbol .openBrace, .keyword .repeat, .symbol .openParen, .number "03", .symbol .closeParen,
      .symbol .openBrace, .symbol .closeBrace, .symbol .closeBrace, .symbol .closeBrace]
  kinds.zipIdx.map fun x => ⟨x.1, ⟨1, x.2 + 1⟩⟩

/-- The conjunction is the left part of the disjunction, and the zero in front is dropped. -/
def loops : Program :=
  ⟨[⟨"f",
    [.while (.or (.and (.not (.query .onBeeper ⟨1, 9⟩)) (.query .leftIsClear ⟨1, 13⟩))
      (.query .onBeeper ⟨1, 17⟩)) [.repeat 3 [] ⟨1, 22⟩] ⟨1, 6⟩],
    ⟨1, 1⟩⟩]⟩

theorem loops_isProgram :
    IsProgram nestingLimit loopTokens loops := by
  have hcount : IsCount "03" 3 := ⟨by simp, by simp, rfl, by decide, by decide⟩
  have hnot : IsOperand 63 _ _ :=
    .not ⟨1, 8⟩ (.query (Query.ofName?_name .onBeeper) ⟨1, 9⟩ ⟨1, 10⟩ ⟨1, 11⟩)
  have hand : IsConjunction 63 _ _ 62 :=
    .more ⟨1, 12⟩ (.one hnot) (.query (Query.ofName?_name .leftIsClear) ⟨1, 13⟩ ⟨1, 14⟩ ⟨1, 15⟩)
  have hor : IsDisjunction 63 _ _ 62 :=
    .more ⟨1, 16⟩ (.one hand)
      (.one (.query (Query.ofName?_name .onBeeper) ⟨1, 17⟩ ⟨1, 18⟩ ⟨1, 19⟩))
  have hrepeat : IsStatement 62 _ _ :=
    .repeat ⟨1, 22⟩ ⟨1, 23⟩ ⟨1, 24⟩ ⟨1, 25⟩ hcount (.braces ⟨1, 26⟩ ⟨1, 27⟩ .nil)
  have hwhile : IsStatement 63 _ _ :=
    .while ⟨1, 6⟩ ⟨1, 7⟩ ⟨1, 20⟩ ⟨62, hor⟩ (.braces ⟨1, 21⟩ ⟨1, 28⟩ (.cons hrepeat .nil))
  have hcommand : IsCommand 64 _ _ :=
    .void "f" ⟨1, 1⟩ ⟨1, 2⟩ ⟨1, 3⟩ ⟨1, 4⟩ (.braces ⟨1, 5⟩ ⟨1, 29⟩ (.cons hwhile .nil))
  exact ⟨List.cons_ne_nil _ _, .cons hcommand .nil⟩

theorem loops_read : ofTokens? (loopTokens ++ [⟨.eof, ⟨1, 30⟩⟩]) = some (.ok loops) := by
  have hdigits : ∀ t ∈ loopTokens, ∀ digits, t.kind = .number digits →
      digits.toList ≠ [] ∧ ∀ c ∈ digits.toList, c.isDigit := by
    intro t ht digits hd
    have hmem : (⟨.number digits, t.position⟩ : Token) ∈ loopTokens := by
      rw [← hd]
      exact ht
    have hthree : digits = "03" := by
      simp [loopTokens] at hmem
      exact hmem.1
    subst hthree
    simp
  exact ((read_tokens_iff_isProgram rfl (by decide) hdigits).1 _).2 loops_isProgram

end Program
end Karel
