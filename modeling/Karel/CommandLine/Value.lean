import Karel.World.Basic
import Karel.Text.Blank
import Karel.Text.Numeral

/-! # Values on the command line

Cells are written `X,Y` and poses `X,Y,DIR`. Blanks around each part are ignored. A coordinate is a
numeral from 0 to 9 and a direction a name or an initial. Numbers are unsigned and fit in 64 bits.
-/

namespace Karel.CommandLine

inductive ValueError where
  | notACell (text : String)
  | notAPose (text : String)
  | badCoordinate (axis : String) (text : String)
  | unknownDirection (text : String)
  | badNumeral (error : Text.NumeralError)
  deriving DecidableEq

def ValueError.message : ValueError → String
  | .notACell text => s!"expected X,Y, got `{text}`"
  | .notAPose text => s!"expected X,Y,DIR, got `{text}`"
  | .badCoordinate axis text => s!"{axis} must be a number from 0 to 9, got `{text}`"
  | .unknownDirection text => Direction.unknownMessage text
  | .badNumeral error => error.message

def cutComma? : List Char → Option (List Char × List Char)
  | [] => none
  | ',' :: rest => some ([], rest)
  | c :: rest => (cutComma? rest).map fun (part, rest) => (c :: part, rest)

/-- A coordinate; a refusal quotes the text with its blanks. -/
def readCoordinate (axis : String) (text : List Char) : Except ValueError (Fin 10) :=
  match Text.readNumeral 255 (Text.trim text) with
  | .ok v => if h : v < 10 then .ok ⟨v, h⟩ else .error (.badCoordinate axis (String.ofList text))
  | .error _ => .error (.badCoordinate axis (String.ofList text))

/-- A cell written `X,Y`. -/
def readCell (text : String) : Except ValueError Cell :=
  match cutComma? text.toList with
  | none => .error (.notACell text)
  | some (x, y) => do
    let x ← readCoordinate "x" x
    let y ← readCoordinate "y" y
    return ⟨x, y⟩

/-- A pose written `X,Y,DIR`. -/
def readPose (text : String) : Except ValueError Pose :=
  match cutComma? text.toList with
  | none => .error (.notAPose text)
  | some (x, rest) =>
    match cutComma? rest with
    | none => .error (.notAPose text)
    | some (y, facing) => do
      let x ← readCoordinate "x" x
      let y ← readCoordinate "y" y
      let name := String.ofList (Text.trim facing)
      match Direction.ofName? name with
      | some d => return ⟨⟨x, y⟩, d⟩
      | none => throw (.unknownDirection name)

/-- A number of 64 bits. -/
def readNumber (text : String) : Except ValueError Nat :=
  match Text.readNumeral 0xffffffffffffffff text.toList with
  | .ok v => .ok v
  | .error e => .error (.badNumeral e)

end Karel.CommandLine
