import Mathlib.Data.List.DropRight
import Mathlib.Data.List.Induction
import Mathlib.Data.List.Infix
import Karel.Proofs.Source.Lexing

/-! # Texts as tilings

A text is a row of tiles, each a gap and the lexeme behind it, with one more gap at the end. What a
gap is and what a lexeme is, is said here without cutting anything: by the characters it is made of
and by what may follow it. Each text has such a tiling, and every tiling of it gives the same
tokens. These stand where their lexemes do, counted in newlines and characters from the start of the
text.
-/
namespace Karel

open Text

/-- The end mark of a comment that may go over several lines. -/
def endMark : List Char := ['*', '/']

/-- A blank or a comment, and what follows it in the text. -/
inductive IsSkipped : List Char → List Char → Prop where
  | blank {c : Char} (h : isBlank c = true) (rest : List Char) : IsSkipped [c] rest
  | line {body rest : List Char} (hbody : '\n' ∉ body) (hrest : ∀ c ∈ rest.head?, c = '\n') :
      IsSkipped ('/' :: '/' :: body) rest
  | closed {body : List Char} (hbody : ¬ endMark <:+: body) (rest : List Char) :
      IsSkipped ('/' :: '*' :: (body ++ endMark)) rest

/-- Blanks and comments one after the other, and what follows them in the text. -/
inductive IsGap : List Char → List Char → Prop where
  | nil (rest : List Char) : IsGap [] rest
  | cons {skipped gap rest : List Char} (h : IsSkipped skipped (gap ++ rest))
      (hgap : IsGap gap rest) : IsGap (skipped ++ gap) rest

/-- The lexeme of a kind of token, and what follows it in the text. Names and numerals are as long
as they can be. Invalid text is a `&` or `|` without its twin, a comment that is not closed, a slash
that begins no comment, or some other character that begins nothing. -/
inductive IsLexeme : Token.Kind → List Char → List Char → Prop where
  | keyword {rest : List Char} (k : Keyword) (hrest : ∀ a ∈ rest.head?, isNameRest a = false) :
      IsLexeme (.keyword k) k.spelling.toList rest
  | identifier {name : String} {rest : List Char} (h : IsIdentifier name)
      (hrest : ∀ a ∈ rest.head?, isNameRest a = false) : IsLexeme (.ident name) name.toList rest
  | number {digits : String} {rest : List Char} (hne : digits.toList ≠ [])
      (hdigits : ∀ a ∈ digits.toList, a.isDigit = true)
      (hrest : ∀ a ∈ rest.head?, a.isDigit = false) : IsLexeme (.number digits) digits.toList rest
  | symbol (s : Symbol) (rest : List Char) : IsLexeme (.symbol s) s.spelling.toList rest
  | lone {c : Char} {rest : List Char} (hc : c = '&' ∨ c = '|') (hrest : rest.head? ≠ some c) :
      IsLexeme (.invalid s!"expected `{c}{c}`, bare `{c}` is not valid") [c] rest
  | unclosed {body : List Char} (hbody : ¬ endMark <:+: body) :
      IsLexeme (.invalid "unclosed comment") ('/' :: '*' :: body) []
  | slash {rest : List Char} (hline : rest.head? ≠ some '/') (hclosed : rest.head? ≠ some '*') :
      IsLexeme (.invalid "unexpected character `/`") ['/'] rest
  | stray {c : Char} (hmark : c ∉ marks) (hblank : isBlank c = false)
      (hdigit : c.isDigit = false) (hname : isNameStart c = false) (rest : List Char) :
      IsLexeme (.invalid s!"unexpected character `{c}`") [c] rest

theorem IsLexeme.exists_cons {kind : Token.Kind} {text rest : List Char}
    (h : IsLexeme kind text rest) : ∃ c cs, text = c :: cs := by
  apply List.exists_cons_of_ne_nil
  cases h with
  | keyword k => cases k <;> simp [Keyword.spelling]
  | identifier hname =>
    obtain ⟨c, cs, hspelling, -⟩ := hname.spelled
    simp [hspelling]
  | number hne => exact hne
  | symbol s => cases s <;> simp [Symbol.spelling]
  | lone => simp
  | unclosed => simp
  | slash => simp
  | stray => simp

theorem IsLexeme.ne_eof {kind : Token.Kind} {text rest : List Char}
    (h : IsLexeme kind text rest) : kind ≠ .eof := by
  cases h <;> simp

/-! ## Cutting a front off -/

namespace Keyword

theorem spelling_of_ofSpelling? {text : String} {k : Keyword} (h : ofSpelling? text = some k) :
    k.spelling = text := by
  have hk := List.find?_some h
  exact beq_iff_eq.1 hk

theorem ofWord_spelling (k : Keyword) : Token.Kind.ofWord k.spelling = .keyword k := by
  cases k <;> decide

/-- Reserved words are spelled like names. -/
theorem spelled (k : Keyword) :
    ∃ c cs, k.spelling.toList = c :: cs ∧ isNameStart c = true ∧ ∀ a ∈ cs, isNameRest a = true := by
  cases k <;> exact ⟨_, _, rfl, by decide, List.all_eq_true.1 (by decide)⟩

end Keyword

namespace Piece

theorem not_endMark_prefix {c : Char} {cs : List Char}
    (h : ∀ rest, c = '*' → cs = '/' :: rest → False) : ¬ endMark <+: c :: cs := by
  rintro ⟨rest, hrest⟩
  cases hrest
  exact h rest rfl rfl

theorem closeComment_eq_none_iff {cs : List Char} : closeComment cs = none ↔ ¬ endMark <:+: cs := by
  fun_induction closeComment cs with
  | case1 => simp [endMark]
  | case2 rest =>
    have hmark : endMark <:+: '*' :: '/' :: rest := ⟨[], rest, rfl⟩
    simp [hmark]
  | case3 c rest hne ih =>
    have hfront := not_endMark_prefix hne
    rw [Option.map_eq_none_iff, ih, List.infix_cons_iff]
    simp [hfront]

theorem closeComment_eq_some {cs text rest : List Char} (h : closeComment cs = some (text, rest)) :
    ∃ body, text = body ++ endMark ∧ ¬ endMark <:+: body := by
  fun_induction closeComment cs generalizing text rest with
  | case1 => cases h
  | case2 =>
    cases h
    exact ⟨[], rfl, by simp [endMark]⟩
  | case3 c cs hne ih =>
    obtain ⟨⟨text', rest'⟩, hclose, h⟩ := Option.map_eq_some_iff.1 h
    cases h
    obtain ⟨body, rfl, hbody⟩ := ih hclose
    refine ⟨c :: body, rfl, ?_⟩
    have happ := closeComment_append hclose
    -- A mark at the front of the body would have ended the comment before.
    have hfront : ¬ endMark <+: c :: body := by
      intro hprefix
      apply not_endMark_prefix hne
      rw [← happ, List.append_assoc, ← List.cons_append]
      exact hprefix.trans (List.prefix_append _ _)
    rw [List.infix_cons_iff, not_or]
    exact ⟨hfront, hbody⟩

theorem closeComment_body {body : List Char} (hbody : ¬ endMark <:+: body) (rest : List Char) :
    closeComment (body ++ (endMark ++ rest)) = some (body ++ endMark, rest) := by
  induction body with
  | nil => rfl
  | cons c body ih =>
    rw [List.infix_cons_iff, not_or] at hbody
    obtain ⟨hfront, hbody⟩ := hbody
    have hne : ∀ rest', c = '*' → body ++ (endMark ++ rest) = '/' :: rest' → False := by
      rintro rest' rfl hslash
      cases body with
      | nil => cases hslash
      | cons d body =>
        cases hslash
        exact hfront ⟨body, rfl⟩
    rw [List.cons_append, closeComment, ih hbody]
    · rfl
    · exact hne

/-- What is cut off is a blank or a comment, or it is the lexeme of its kind. -/
def WellCut (piece : Piece) : Prop :=
  match piece.kind with
  | none => IsSkipped piece.text piece.rest
  | some kind => IsLexeme kind piece.text piece.rest

theorem head?_dropWhile_eq_false {more : Char → Bool} {cs : List Char} {a : Char}
    (h : a ∈ (cs.dropWhile more).head?) : more a = false := by
  have hhead := List.head?_dropWhile_not more cs
  rw [h] at hhead
  simpa using hhead

theorem wellCut_doubled {c : Char} (hc : c = '&' ∨ c = '|') {s : Symbol}
    (hs : s.spelling.toList = [c, c]) (cs : List Char) : (doubled c cs s).WellCut := by
  unfold doubled
  split
  · next d rest =>
    split
    · next hd =>
      have hsymbol := IsLexeme.symbol s rest
      rw [hs] at hsymbol
      rw [hd]
      exact hsymbol
    · next hd =>
      refine IsLexeme.lone hc ?_
      intro hhead
      exact hd (Option.some.inj hhead)
  · exact IsLexeme.lone hc (by simp)

theorem wellCut_slash (cs : List Char) : (slash cs).WellCut := by
  unfold slash
  split
  · next rest =>
    refine IsSkipped.line ?_ ?_
    · intro hmem
      simpa using List.mem_takeWhile_imp hmem
    · intro c hc
      simpa using head?_dropWhile_eq_false hc
  · next rest =>
    split
    · next body rest' hclose =>
      obtain ⟨body, rfl, hbody⟩ := closeComment_eq_some hclose
      exact IsSkipped.closed hbody _
    · next hclose => exact IsLexeme.unclosed (closeComment_eq_none_iff.1 hclose)
  · next hline hclosed =>
    refine IsLexeme.slash ?_ ?_
    · intro hhead
      obtain ⟨rest, rfl⟩ := List.head?_eq_some_iff.1 hhead
      exact hline _ rfl
    · intro hhead
      obtain ⟨rest, rfl⟩ := List.head?_eq_some_iff.1 hhead
      exact hclosed _ rfl

theorem wellCut_number {c : Char} (hc : c.isDigit = true) (cs : List Char) :
    (spanning c cs Char.isDigit fun text => some (.number text)).WellCut := by
  have hnumber : IsLexeme (.number (String.ofList (c :: cs.takeWhile Char.isDigit)))
      (String.ofList (c :: cs.takeWhile Char.isDigit)).toList (cs.dropWhile Char.isDigit) := by
    refine .number ?_ ?_ fun a ha => head?_dropWhile_eq_false ha
    · simp
    · intro a ha
      rw [String.toList_ofList] at ha
      rcases List.mem_cons.1 ha with rfl | ha
      · exact hc
      · exact List.mem_takeWhile_imp ha
  rw [String.toList_ofList] at hnumber
  exact hnumber

theorem wellCut_word {c : Char} (hc : isNameStart c = true) (cs : List Char) :
    (spanning c cs isNameRest fun text => some (.ofWord text)).WellCut := by
  have hrest : ∀ a ∈ (cs.dropWhile isNameRest).head?, isNameRest a = false :=
    fun a ha => head?_dropWhile_eq_false ha
  have hword : IsLexeme (.ofWord (String.ofList (c :: cs.takeWhile isNameRest)))
      (String.ofList (c :: cs.takeWhile isNameRest)).toList (cs.dropWhile isNameRest) := by
    rw [Token.Kind.ofWord]
    split
    · next k hk =>
      rw [← Keyword.spelling_of_ofSpelling? hk]
      exact .keyword k hrest
    · next hfree =>
      refine .identifier ⟨⟨c, cs.takeWhile isNameRest, ?_, hc, ?_⟩, hfree⟩ hrest
      · exact String.toList_ofList
      · exact fun a ha => List.mem_takeWhile_imp ha
  rw [String.toList_ofList] at hword
  exact hword

theorem wellCut_plain {c : Char} (hc : c ∉ marks) (cs : List Char) : (plain c cs).WellCut := by
  unfold plain
  split
  · next hblank => exact IsSkipped.blank hblank cs
  · next hblank =>
    split
    · next hdigit => exact wellCut_number hdigit cs
    · next hdigit =>
      split
      · next hname => exact wellCut_word hname cs
      · next hname =>
        exact IsLexeme.stray hc (by simpa using hblank) (by simpa using hdigit)
          (by simpa using hname) cs

theorem wellCut_first (c : Char) (cs : List Char) : (first c cs).WellCut := by
  unfold first
  split
  · exact IsLexeme.symbol .openParen cs
  · exact IsLexeme.symbol .closeParen cs
  · exact IsLexeme.symbol .openBrace cs
  · exact IsLexeme.symbol .closeBrace cs
  · exact IsLexeme.symbol .semicolon cs
  · exact IsLexeme.symbol .bang cs
  · exact wellCut_doubled (.inl rfl) rfl cs
  · exact wellCut_doubled (.inr rfl) rfl cs
  · exact wellCut_slash cs
  · next h₁ h₂ h₃ h₄ h₅ h₆ h₇ h₈ h₉ =>
    refine wellCut_plain ?_ cs
    simp only [marks, List.mem_cons, List.not_mem_nil, or_false, not_or]
    exact ⟨h₁, h₂, h₃, h₄, h₅, h₆, h₇, h₈, h₉⟩

/-! ### What stands at the front is cut off -/

theorem first_skipped {c : Char} {cs rest : List Char} (h : IsSkipped (c :: cs) rest) :
    first c (cs ++ rest) = ⟨none, c :: cs, rest⟩ := by
  cases h with
  | blank hblank => exact first_blank hblank rest
  | @line body _ hbody hrest =>
    have hcs : ∀ a ∈ body, (a != '\n') = true := by
      intro a ha
      rw [bne_iff_ne]
      rintro rfl
      exact hbody ha
    have hstop : ∀ a ∈ rest.head?, (a != '\n') = false := by
      intro a ha
      rw [hrest a ha]
      rfl
    obtain ⟨htake, hdrop⟩ := span_append hcs hstop
    change slash ('/' :: (body ++ rest)) = _
    rw [slash, htake, hdrop]
  | @closed body hbody =>
    change slash ('*' :: (body ++ endMark ++ rest)) = _
    rw [List.append_assoc, slash, closeComment_body hbody]

theorem first_lexeme {kind : Token.Kind} {c : Char} {cs rest : List Char}
    (h : IsLexeme kind (c :: cs) rest) : first c (cs ++ rest) = ⟨some kind, c :: cs, rest⟩ := by
  generalize ht : c :: cs = text at h
  cases h with
  | keyword k hrest =>
    obtain ⟨d, ds, hspelling, hd, hds⟩ := k.spelled
    cases ht.trans hspelling
    rw [first_word hd hds hrest, ht, String.ofList_toList, k.ofWord_spelling]
  | identifier hname hrest =>
    obtain ⟨d, ds, hspelling, hd, hds⟩ := hname.spelled
    cases ht.trans hspelling
    rw [first_word hd hds hrest, ht, String.ofList_toList, Token.Kind.ofWord, hname.free]
  | number hne hdigits hrest =>
    rw [← ht] at hdigits
    obtain ⟨hc, hcs⟩ := List.forall_mem_cons.1 hdigits
    rw [first_number hc hcs hrest, ht, String.ofList_toList]
  | symbol s => cases s <;> cases ht <;> rfl
  | lone hc hrest =>
    cases ht
    have hdoubled : ∀ s, doubled c rest s =
        ⟨some (.invalid s!"expected `{c}{c}`, bare `{c}` is not valid"), [c], rest⟩ := by
      intro s
      cases rest with
      | nil => rfl
      | cons d rest => rw [doubled, if_neg fun hd => hrest (congrArg some hd)]
    rcases hc with rfl | rfl
    · exact hdoubled .andAnd
    · exact hdoubled .orOr
  | unclosed hbody =>
    cases ht
    rw [List.append_nil]
    change slash ('*' :: _) = _
    rw [slash, closeComment_eq_none_iff.2 hbody]
  | slash hline hclosed =>
    cases ht
    change slash rest = _
    unfold slash
    split
    · exact absurd rfl hline
    · exact absurd rfl hclosed
    · rfl
  | stray hmark hblank hdigit hname =>
    cases ht
    rw [List.nil_append, first_eq_plain hmark, plain, if_neg (by simp [hblank]),
      if_neg (by simp [hdigit]), if_neg (by simp [hname])]
    rfl

end Piece

section Tokens
variable (p : Position)

theorem tokensFrom_skipped {skipped rest : List Char} (h : IsSkipped skipped rest) :
    tokensFrom p (skipped ++ rest) = tokensFrom (p.after skipped) rest := by
  cases skipped with
  | nil => cases h
  | cons c cs => rw [List.cons_append, tokensFrom, Piece.first_skipped h]

theorem tokensFrom_gap {gap rest : List Char} (h : IsGap gap rest) :
    tokensFrom p (gap ++ rest) = tokensFrom (p.after gap) rest := by
  induction h generalizing p with
  | nil rest => rfl
  | cons hskipped hgap ih =>
    rw [List.append_assoc, tokensFrom_skipped p hskipped, ih, Position.after_append]

theorem tokensFrom_lexeme {kind : Token.Kind} {text rest : List Char}
    (h : IsLexeme kind text rest) :
    tokensFrom p (text ++ rest) = ⟨kind, p⟩ :: tokensFrom (p.after text) rest := by
  obtain ⟨c, cs, rfl⟩ := h.exists_cons
  rw [List.cons_append, tokensFrom, Piece.first_lexeme h]

end Tokens

/-! ## Tilings -/

/-- A gap and the lexeme behind it. -/
structure Tile where
  gap : List Char
  kind : Token.Kind
  lexeme : List Char

/-- The text of some tiles and of the gap behind them. -/
def Tile.textOf (last : List Char) : List Tile → List Char
  | [] => last
  | t :: ts => t.gap ++ (t.lexeme ++ textOf last ts)

/-- The gaps and lexemes of tiles are gaps and lexemes in the text that they make up. -/
def Tile.Fit (last : List Char) : List Tile → Prop
  | [] => IsGap last []
  | t :: ts =>
    IsGap t.gap (t.lexeme ++ textOf last ts) ∧ IsLexeme t.kind t.lexeme (textOf last ts) ∧
      Fit last ts

/-- The place behind a text: its line is one more than its newlines, its column one more than the
characters after the last of them. -/
def Position.behind (before : List Char) : Position :=
  ⟨before.count '\n' + 1, (before.rtakeWhile (· != '\n')).length + 1⟩

/-- The tokens of tiles behind some text, each in the place of its lexeme, and the end of file in
the place behind everything. -/
def Tile.tokensOf (last before : List Char) : List Tile → List Token
  | [] => [⟨.eof, .behind (before ++ last)⟩]
  | t :: ts =>
    ⟨t.kind, .behind (before ++ t.gap)⟩ :: tokensOf last (before ++ t.gap ++ t.lexeme) ts

theorem Position.behind_concat (before : List Char) (c : Char) :
    behind (before ++ [c]) = (behind before).next c := by
  by_cases hc : c = '\n'
  · subst hc
    simp [behind, next]
  · simp [behind, next, hc]

theorem Position.after_start (before : List Char) : start.after before = behind before := by
  induction before using List.reverseRecOn with
  | nil => rfl
  | append_singleton before c ih =>
    rw [after_append, ih, behind_concat]
    rfl

namespace Tile

theorem tokensFrom_textOf {last : List Char} {tiles : List Tile} (h : Fit last tiles)
    (before : List Char) :
    tokensFrom (.behind before) (textOf last tiles) = tokensOf last before tiles := by
  induction tiles generalizing before with
  | nil =>
    have hgap := tokensFrom_gap (.behind before) h
    rw [List.append_nil] at hgap
    rw [textOf, hgap, tokensFrom_nil, tokensOf, ← Position.after_start, ← Position.after_start,
      Position.after_append]
  | cons t ts ih =>
    obtain ⟨hgap, hlexeme, hfit⟩ := h
    rw [textOf, tokensFrom_gap _ hgap, tokensFrom_lexeme _ hlexeme, tokensOf, ← ih hfit]
    simp only [← Position.after_start, Position.after_append]

/-- A blank or a comment at the front makes the first gap longer. -/
theorem exists_fit_skipped {skipped last : List Char} {tiles : List Tile}
    (h : IsSkipped skipped (textOf last tiles)) (hfit : Fit last tiles) :
    ∃ last' tiles', Fit last' tiles' ∧ textOf last' tiles' = skipped ++ textOf last tiles := by
  cases tiles with
  | nil =>
    refine ⟨skipped ++ last, [], .cons ?_ hfit, rfl⟩
    rw [List.append_nil]
    exact h
  | cons t ts =>
    obtain ⟨hgap, hlexeme, hrest⟩ := hfit
    refine ⟨last, { t with gap := skipped ++ t.gap } :: ts, ⟨.cons h hgap, hlexeme, hrest⟩, ?_⟩
    exact List.append_assoc _ _ _

theorem exists_fit (p : Position) (cs : List Char) :
    ∃ last tiles, Fit last tiles ∧ textOf last tiles = cs := by
  fun_induction tokensFrom p cs with
  | case1 => exact ⟨[], [], .nil _, rfl⟩
  | case2 p c cs piece following kind hkind ih =>
    have hcut : piece.WellCut := Piece.wellCut_first c cs
    have happ : piece.text ++ piece.rest = c :: cs := Piece.first_append c cs
    obtain ⟨last, tiles, hfit, htext⟩ := ih
    rw [Piece.WellCut, hkind, ← htext] at hcut
    refine ⟨last, ⟨[], kind, piece.text⟩ :: tiles, ⟨.nil _, hcut, hfit⟩, ?_⟩
    rw [← happ, ← htext]
    rfl
  | case3 p c cs piece following hkind ih =>
    have hcut : piece.WellCut := Piece.wellCut_first c cs
    have happ : piece.text ++ piece.rest = c :: cs := Piece.first_append c cs
    obtain ⟨last, tiles, hfit, htext⟩ := ih
    rw [Piece.WellCut, hkind, ← htext] at hcut
    obtain ⟨last', tiles', hfit', htext'⟩ := exists_fit_skipped hcut hfit
    refine ⟨last', tiles', hfit', ?_⟩
    rw [htext', htext, happ]

theorem Fit.ne_eof {last : List Char} {tiles : List Tile} (h : Fit last tiles) :
    ∀ t ∈ tiles, t.kind ≠ .eof := by
  induction tiles with
  | nil => simp
  | cons t ts ih =>
    obtain ⟨-, hlexeme, hfit⟩ := h
    exact List.forall_mem_cons.2 ⟨hlexeme.ne_eof, ih hfit⟩

end Tile

/-- Cutting a text up is tiling it: the tokens of a text are those that fitting tiles of it have,
with the end of file behind them and nowhere else, and there are such tiles. -/
theorem tokenize_eq_iff_tiled {source : String} {tokens : List Token} :
    tokenize source = tokens ↔ ∃ last tiles, source.toList = Tile.textOf last tiles ∧
      Tile.Fit last tiles ∧ (∀ t ∈ tiles, t.kind ≠ .eof) ∧
      tokens = Tile.tokensOf last [] tiles := by
  constructor
  · intro h
    obtain ⟨last, tiles, hfit, htext⟩ := Tile.exists_fit .start source.toList
    refine ⟨last, tiles, htext.symm, hfit, hfit.ne_eof, ?_⟩
    rw [← h, tokenize, ← htext]
    exact Tile.tokensFrom_textOf hfit []
  · rintro ⟨last, tiles, htext, hfit, -, rfl⟩
    rw [tokenize, htext]
    exact Tile.tokensFrom_textOf hfit []

example : tokenize "/*/ a **/b\n/ &" =
    [⟨.ident "b", ⟨1, 10⟩⟩, ⟨.invalid "unexpected character `/`", ⟨2, 1⟩⟩,
      ⟨.invalid "expected `&&`, bare `&` is not valid", ⟨2, 3⟩⟩, ⟨.eof, ⟨2, 4⟩⟩] := by cbv

end Karel
