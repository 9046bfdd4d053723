import Karel.Source.Token
import Karel.Text.Blank

/-! # Cutting a text into lexemes

A text is a sequence of pieces: gaps, which are blanks and comments, and lexemes, each of which is
one token. `Piece.first` cuts off the piece at the front, `tokenize` cuts up the whole text. Nothing
is refused here: what is not a token of the language becomes an invalid token.
-/

namespace Karel

def isNameStart (c : Char) : Bool := c.isAlpha || c == '_'

def isNameRest (c : Char) : Bool := c.isAlphanum || c == '_'

/-- The front of a text: the token it is, if it is no gap, its characters and what follows it. -/
structure Piece where
  kind : Option Token.Kind
  text : List Char
  rest : List Char

namespace Piece

def closeComment : List Char → Option (List Char × List Char)
  | [] => none
  | '*' :: '/' :: rest => some (['*', '/'], rest)
  | c :: rest => (closeComment rest).map fun (body, rest) => (c :: body, rest)

/-- The piece made of a first character and the following ones that satisfy `more`. -/
def spanning (c : Char) (cs : List Char) (more : Char → Bool) (kind : String → Option Token.Kind) :
    Piece :=
  let text := c :: cs.takeWhile more
  ⟨kind (String.ofList text), text, cs.dropWhile more⟩

/-- An operator that is written twice in a row; alone it is invalid. -/
def doubled (c : Char) (cs : List Char) (symbol : Symbol) : Piece :=
  match cs with
  | d :: rest =>
    if d = c then ⟨some (.symbol symbol), [c, d], rest⟩
    else ⟨some (.invalid s!"expected `{c}{c}`, bare `{c}` is not valid"), [c], cs⟩
  | [] => ⟨some (.invalid s!"expected `{c}{c}`, bare `{c}` is not valid"), [c], cs⟩

def single (c : Char) (cs : List Char) (kind : Token.Kind) : Piece := ⟨some kind, [c], cs⟩

/-- What a slash begins: a comment to the end of the line, a comment up to its end mark, or nothing
of the language. -/
def slash : List Char → Piece
  | '/' :: rest => ⟨none, '/' :: '/' :: rest.takeWhile (· != '\n'), rest.dropWhile (· != '\n')⟩
  | '*' :: rest =>
    match closeComment rest with
    | some (body, rest) => ⟨none, '/' :: '*' :: body, rest⟩
    | none => ⟨some (.invalid "unclosed comment"), '/' :: '*' :: rest, []⟩
  | rest => single '/' rest (.invalid "unexpected character `/`")

/-- The piece that starts with a character other than a symbol or a slash. -/
def plain (c : Char) (cs : List Char) : Piece :=
  if Text.isBlank c then ⟨none, [c], cs⟩
  else if c.isDigit then spanning c cs Char.isDigit fun text => some (.number text)
  else if isNameStart c then spanning c cs isNameRest fun text => some (.ofWord text)
  else single c cs (.invalid s!"unexpected character `{c}`")

/-- The piece at the front of a text that starts with `c` and goes on with `cs`. -/
def first (c : Char) (cs : List Char) : Piece :=
  match c with
  | '(' => single c cs (.symbol .openParen)
  | ')' => single c cs (.symbol .closeParen)
  | '\x7b' => single c cs (.symbol .openBrace)
  | '\x7d' => single c cs (.symbol .closeBrace)
  | ';' => single c cs (.symbol .semicolon)
  | '!' => single c cs (.symbol .bang)
  | '&' => doubled c cs .andAnd
  | '|' => doubled c cs .orOr
  | '/' => slash cs
  | _ => plain c cs

theorem closeComment_append {cs body rest : List Char} (h : closeComment cs = some (body, rest)) :
    body ++ rest = cs := by
  fun_induction closeComment cs generalizing body rest with
  | case1 => cases h
  | case2 rest' => cases h; rfl
  | case3 c rest' _ ih =>
    obtain ⟨⟨b, r⟩, hbr, h⟩ := Option.map_eq_some_iff.1 h
    cases h
    simp [ih hbr]

theorem spanning_append (c : Char) (cs : List Char) (more : Char → Bool)
    (kind : String → Option Token.Kind) :
    (spanning c cs more kind).text ++ (spanning c cs more kind).rest = c :: cs := by
  simp [spanning]

theorem doubled_append (c : Char) (cs : List Char) (symbol : Symbol) :
    (doubled c cs symbol).text ++ (doubled c cs symbol).rest = c :: cs := by
  unfold doubled
  split
  · split
    · simp
    · simp
  · simp

theorem slash_append (cs : List Char) : (slash cs).text ++ (slash cs).rest = '/' :: cs := by
  unfold slash
  split
  · simp
  · split
    · next h => simp [closeComment_append h]
    · simp
  · simp [single]

theorem plain_append (c : Char) (cs : List Char) :
    (plain c cs).text ++ (plain c cs).rest = c :: cs := by
  unfold plain
  repeat' split
  · rfl
  · exact spanning_append _ _ _ _
  · exact spanning_append _ _ _ _
  · rfl

/-- A piece and what follows it make up the text it was cut from. -/
theorem first_append (c : Char) (cs : List Char) :
    (first c cs).text ++ (first c cs).rest = c :: cs := by
  unfold first
  split
  case h_7 => exact doubled_append _ _ _
  case h_8 => exact doubled_append _ _ _
  case h_9 => exact slash_append _
  case h_10 => exact plain_append _ _
  all_goals rfl

theorem doubled_text_ne_nil (c : Char) (cs : List Char) (symbol : Symbol) :
    (doubled c cs symbol).text ≠ [] := by
  unfold doubled
  repeat' split
  all_goals simp

theorem slash_text_ne_nil (cs : List Char) : (slash cs).text ≠ [] := by
  unfold slash
  repeat' split
  all_goals simp [single]

theorem plain_text_ne_nil (c : Char) (cs : List Char) : (plain c cs).text ≠ [] := by
  unfold plain
  repeat' split
  all_goals simp [single, spanning]

theorem first_text_ne_nil (c : Char) (cs : List Char) : (first c cs).text ≠ [] := by
  unfold first
  split
  case h_7 => exact doubled_text_ne_nil _ _ _
  case h_8 => exact doubled_text_ne_nil _ _ _
  case h_9 => exact slash_text_ne_nil _
  case h_10 => exact plain_text_ne_nil _ _
  all_goals exact List.cons_ne_nil _ _

theorem first_rest_length (c : Char) (cs : List Char) :
    (first c cs).rest.length < (c :: cs).length := by
  have happ := congrArg List.length (first_append c cs)
  have hne := List.length_pos_iff.2 (first_text_ne_nil c cs)
  rw [List.length_append] at happ
  omega

end Piece

/-- The tokens of a text that starts at a position, closed by the end-of-file token. -/
def tokensFrom (p : Position) : List Char → List Token
  | [] => [⟨.eof, p⟩]
  | c :: cs =>
    let piece := Piece.first c cs
    let following := tokensFrom (p.after piece.text) piece.rest
    match piece.kind with
    | some kind => ⟨kind, p⟩ :: following
    | none => following
termination_by cs => cs.length
decreasing_by exact Piece.first_rest_length c cs

def tokenize (source : String) : List Token := tokensFrom .start source.toList

theorem tokensFrom_ne_nil (p : Position) (cs : List Char) : tokensFrom p cs ≠ [] := by
  fun_induction tokensFrom p cs with
  | case1 => exact List.cons_ne_nil _ _
  | case2 => exact List.cons_ne_nil _ _
  | case3 _ _ _ _ _ _ ih => exact ih

end Karel
