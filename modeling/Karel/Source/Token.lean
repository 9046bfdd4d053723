import Karel.Source.Position

/-! # Tokens

The words of the language: names, numerals, five keywords and eight symbols. Text that is none of
these becomes an invalid token that carries its own message, and the end of the text is a token too.
-/

namespace Karel

inductive Keyword where
  | void
  | «repeat»
  | «if»
  | «else»
  | «while»
  deriving DecidableEq

namespace Keyword

def all : List Keyword := [.void, .repeat, .if, .else, .while]

def spelling : Keyword → String
  | .void => "void"
  | .repeat => "repeat"
  | .if => "if"
  | .else => "else"
  | .while => "while"

def ofSpelling? (text : String) : Option Keyword := all.find? fun k => k.spelling == text

end Keyword

inductive Symbol where
  | bang
  | andAnd
  | orOr
  | openParen
  | closeParen
  | openBrace
  | closeBrace
  | semicolon
  deriving DecidableEq

def Symbol.spelling : Symbol → String
  | .bang => "!"
  | .andAnd => "&&"
  | .orOr => "||"
  | .openParen => "("
  | .closeParen => ")"
  | .openBrace => "\x7b"
  | .closeBrace => "\x7d"
  | .semicolon => ";"

namespace Token

/-- What a token is, apart from where it stands. A numeral keeps its digits as written. -/
inductive Kind where
  | ident (name : String)
  | number (digits : String)
  | keyword (word : Keyword)
  | symbol (symbol : Symbol)
  | invalid (message : String)
  | eof
  deriving DecidableEq

namespace Kind

/-- A word that is not reserved is a name. -/
def ofWord (text : String) : Kind :=
  match Keyword.ofSpelling? text with
  | some k => .keyword k
  | none => .ident text

/-- How a token is named in messages; for all but invalid text and the end, how it is written. -/
def label : Kind → String
  | .ident name => name
  | .number digits => digits
  | .keyword k => k.spelling
  | .symbol s => s.spelling
  | .invalid _ => "invalid input"
  | .eof => "end of file"

end Kind

end Token

structure Token where
  kind : Token.Kind
  position : Position
  deriving DecidableEq

end Karel
