/-! # Unsigned decimal numerals

A numeral is a non-empty run of ASCII digits, with a plus sign before it if one likes. Reading goes
from left to right and stops at the first character that is no digit or that takes the value beyond
the limit, so of two faults the earlier one is reported.
-/

namespace Karel.Text

inductive NumeralError where
  | empty
  | invalidDigit
  | tooLarge
  deriving DecidableEq

def NumeralError.message : NumeralError → String
  | .empty => "cannot parse integer from empty string"
  | .invalidDigit => "invalid digit found in string"
  | .tooLarge => "number too large to fit in target type"

def digitValue (c : Char) : Nat := c.toNat - '0'.toNat

/-- Reads digits on top of the value of those already read. -/
def readDigits (limit value : Nat) : List Char → Except NumeralError Nat
  | [] => .ok value
  | c :: cs =>
    if c.isDigit then
      let value := value * 10 + digitValue c
      if limit < value then .error .tooLarge else readDigits limit value cs
    else .error .invalidDigit

/-- The value of a numeral, which may not be larger than `limit`. -/
def readNumeral (limit : Nat) : List Char → Except NumeralError Nat
  | [] => .error .empty
  | ['+'] => .error .invalidDigit
  | '+' :: cs => readDigits limit 0 cs
  | cs => readDigits limit 0 cs

/-- The number of bytes that a text takes in UTF-8. -/
def byteLength : List Char → Nat
  | [] => 0
  | c :: cs => c.utf8Size + byteLength cs

/-- The value of a run of digits, whatever its length. -/
def decimalValue (cs : List Char) : Nat := cs.foldl (fun value c => value * 10 + digitValue c) 0

end Karel.Text
