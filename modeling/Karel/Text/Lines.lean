/-! # Lines of a text

A text is split at its newlines. A carriage return directly before a newline belongs to the line
ending, and a newline at the very end of the text begins no further line.
-/

namespace Karel.Text

/-- Cuts a text after its first newline: the characters before the newline, and those after it
unless there is none. -/
def cutLine : List Char → List Char × Option (List Char)
  | [] => ([], none)
  | '\n' :: rest => ([], some rest)
  | c :: rest =>
    let (line, more) := cutLine rest
    (c :: line, more)

/-- A line without the carriage return at its end. -/
def dropReturn (line : List Char) : List Char :=
  if line.getLast? = some '\r' then line.dropLast else line

theorem cutLine_length {cs line rest : List Char} (h : cutLine cs = (line, some rest)) :
    rest.length < cs.length := by
  fun_induction cutLine cs generalizing line rest with
  | case1 => cases h
  | case2 => cases h; simp
  | case3 c cs _ line' more hcut ih =>
    cases h
    have := ih hcut
    simp only [List.length_cons]
    omega

/-- The lines of a text. -/
def lines (cs : List Char) : List (List Char) :=
  if cs = [] then []
  else
    match h : cutLine cs with
    | (line, none) => [line]
    | (line, some rest) =>
      have := cutLine_length h
      dropReturn line :: lines rest
termination_by cs.length

end Karel.Text
