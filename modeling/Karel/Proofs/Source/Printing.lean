import Karel.Proofs.Source.Tiling

/-! # Writing tokens down

Tokens are written one after the other with separators between them: blanks, comments that are
closed, and comments that end with their line. Whatever stands in the comments, the text is cut up
into the same tokens again, since a separator is a gap wherever it stands and no name or numeral
goes on with the first character of one.
-/
namespace Karel

open Text

/-- What may stand between two tokens. -/
inductive IsSeparator : List Char → Prop where
  | nil : IsSeparator []
  | blank {c : Char} {cs : List Char} (hc : isBlank c = true) (hcs : IsSeparator cs) :
      IsSeparator (c :: cs)
  | closed {body cs : List Char} (hbody : ¬ endMark <:+: body) (hcs : IsSeparator cs) :
      IsSeparator ('/' :: '*' :: (body ++ endMark) ++ cs)
  | line {body cs : List Char} (hbody : '\n' ∉ body) (hcs : IsSeparator cs) :
      IsSeparator ('/' :: '/' :: body ++ '\n' :: cs)

theorem IsSeparator.isGap {cs : List Char} (h : IsSeparator cs) (rest : List Char) :
    IsGap cs rest := by
  induction h with
  | nil => exact .nil rest
  | blank hc hcs ih => exact .cons (.blank hc _) ih
  | closed hbody hcs ih => exact .cons (.closed hbody _) ih
  | line hbody hcs ih =>
    have hnewline : IsGap ('\n' :: _) rest := .cons (.blank (by decide) _) ih
    exact .cons (.line hbody (by simp)) hnewline

theorem IsSeparator.isNameRest_head {cs : List Char} (h : IsSeparator cs) {a : Char}
    (ha : a ∈ cs.head?) : isNameRest a = false := by
  cases h with
  | nil => cases ha
  | @blank c cs hc hcs =>
    cases ha
    by_contra hname
    rw [isBlank_of_isNameRest (by simpa using hname)] at hc
    cases hc
  | closed hbody hcs =>
    cases ha
    decide
  | line hbody hcs =>
    cases ha
    decide

/-- A kind of token that can be written: a name is spelled like one and not reserved, a numeral has
digits. -/
def Token.Kind.IsWritable : Token.Kind → Prop
  | .ident name => IsIdentifier name
  | .number digits => digits.toList ≠ [] ∧ ∀ a ∈ digits.toList, a.isDigit = true
  | .keyword _ => True
  | .symbol _ => True
  | .invalid _ => False
  | .eof => False

theorem Token.Kind.IsWritable.isLexeme {kind : Token.Kind} (h : kind.IsWritable)
    {rest : List Char} (hrest : ∀ a ∈ rest.head?, isNameRest a = false) :
    IsLexeme kind kind.label.toList rest := by
  cases kind with
  | ident name => exact .identifier h hrest
  | number digits =>
    refine .number h.1 h.2 fun a ha => ?_
    by_contra hdigit
    have hname := isNameRest_of_isDigit (by simpa using hdigit)
    rw [hrest a ha] at hname
    cases hname
  | keyword k => exact .keyword k hrest
  | symbol s => exact .symbol s rest
  | invalid message => exact h.elim
  | eof => exact h.elim

/-- A separator and then tokens in writing, each with the separator behind it. -/
def printed (lead : List Char) : List (Token.Kind × List Char) → List Char
  | [] => lead
  | (kind, separator) :: items => lead ++ (kind.label.toList ++ printed separator items)

/-- No name or numeral goes on with what is printed behind it. -/
theorem isNameRest_head_printed {separator : List Char} {items : List (Token.Kind × List Char)}
    (hs : IsSeparator separator) (hne : items ≠ [] → separator ≠ []) {a : Char}
    (ha : a ∈ (printed separator items).head?) : isNameRest a = false := by
  apply hs.isNameRest_head
  cases items with
  | nil => exact ha
  | cons item items =>
    have hnil := hne (List.cons_ne_nil _ _)
    rw [printed, List.head?_append_of_ne_nil _ hnil] at ha
    exact ha

theorem kinds_tokensFrom_printed {items : List (Token.Kind × List Char)} {lead : List Char}
    (hlead : IsSeparator lead) (hitems : ∀ x ∈ items, x.1.IsWritable ∧ IsSeparator x.2)
    (hne : ∀ x ∈ items.dropLast, x.2 ≠ []) (p : Position) :
    (tokensFrom p (printed lead items)).map Token.kind = items.map Prod.fst ++ [.eof] := by
  induction items generalizing lead p with
  | nil =>
    have hgap := tokensFrom_gap p (hlead.isGap [])
    rw [List.append_nil] at hgap
    rw [printed, hgap, tokensFrom_nil]
    rfl
  | cons x items ih =>
    obtain ⟨kind, separator⟩ := x
    obtain ⟨⟨hkind, hseparator⟩, hrest⟩ := List.forall_mem_cons.1 hitems
    have hbetween : items ≠ [] → separator ≠ [] := by
      intro hitems
      refine hne (kind, separator) ?_
      rw [List.dropLast_cons_of_ne_nil hitems]
      exact List.mem_cons_self
    have hrestne : ∀ x ∈ items.dropLast, x.2 ≠ [] := by
      intro x hx
      refine hne x ?_
      have hitems : items ≠ [] := List.ne_nil_of_mem (List.dropLast_subset _ hx)
      rw [List.dropLast_cons_of_ne_nil hitems]
      exact List.mem_cons_of_mem _ hx
    have hlexeme := hkind.isLexeme fun a ha => isNameRest_head_printed hseparator hbetween ha
    rw [printed, tokensFrom_gap p (hlead.isGap _), tokensFrom_lexeme _ hlexeme, List.map_cons,
      ih hseparator hrest hrestne]
    rfl

/-- Cutting a text up undoes writing it down, however the tokens are laid out. -/
theorem tokenize_printed {items : List (Token.Kind × List Char)} {lead : List Char}
    (hlead : IsSeparator lead) (hitems : ∀ x ∈ items, x.1.IsWritable ∧ IsSeparator x.2)
    (hne : ∀ x ∈ items.dropLast, x.2 ≠ []) :
    (tokenize (String.ofList (printed lead items))).map Token.kind =
      items.map Prod.fst ++ [.eof] := by
  rw [tokenize, String.toList_ofList]
  exact kinds_tokensFrom_printed hlead hitems hne .start

/-- A few tokens and the separators behind them, with comments that look as if they ended early or
late. -/
def chatter : List (Token.Kind × List Char) :=
  [(.keyword .while, "/*/ void **/".toList), (.symbol .openParen, "// */ f();\n".toList),
    (.ident "x1", "\t".toList), (.number "007", [])]

theorem chatter_isSeparator : ∀ x ∈ chatter, x.1.IsWritable ∧ IsSeparator x.2 := by
  have hrest : ∀ c ∈ ['1'], isNameRest c = true := List.all_eq_true.1 (by decide)
  have hname : IsIdentifier "x1" := ⟨⟨'x', ['1'], rfl, by decide, hrest⟩, by decide⟩
  have hdigits : Token.Kind.IsWritable (.number "007") :=
    ⟨by decide, List.all_eq_true.1 (by decide)⟩
  have hclosed : IsSeparator "/*/ void **/".toList :=
    @IsSeparator.closed "/ void *".toList [] (by decide) .nil
  have hline : IsSeparator "// */ f();\n".toList :=
    @IsSeparator.line " */ f();".toList [] (by decide) .nil
  have hblank : IsSeparator "\t".toList := .blank (by decide) .nil
  intro x hx
  simp only [chatter, List.mem_cons, List.not_mem_nil, or_false] at hx
  rcases hx with rfl | rfl | rfl | rfl
  · exact ⟨trivial, hclosed⟩
  · exact ⟨trivial, hline⟩
  · exact ⟨hname, hblank⟩
  · exact ⟨hdigits, .nil⟩

theorem chatter_tokenize_printed :
    printed "/***/".toList chatter = "/***/while/*/ void **/(// */ f();\nx1\t007".toList ∧
      (tokenize (String.ofList (printed "/***/".toList chatter))).map Token.kind =
        [.keyword .while, .symbol .openParen, .ident "x1", .number "007", .eof] := by
  have hlead : IsSeparator "/***/".toList := @IsSeparator.closed ['*'] [] (by decide) .nil
  have hprinted := tokenize_printed hlead chatter_isSeparator (by decide)
  exact ⟨by decide, hprinted⟩

end Karel
