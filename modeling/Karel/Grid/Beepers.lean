import Karel.Grid.Cell

/-! # Sets of beepers

A beeper lies on a cell or it does not, so the beepers of a world are a set of cells. The set is
packed into two 64-bit words: cells 0 to 63 in the low word, cells 64 to 99 in the low bits of the
high word.
-/

namespace Karel

/-- A set of cells, as a low and a high word. -/
@[ext]
structure Beepers where
  lo : UInt64
  hi : UInt64
  deriving DecidableEq

namespace Beepers

/-- The bits of the high word that stand for cells. -/
def highBits : UInt64 := 0xfffffffff

def empty : Beepers := ⟨0, 0⟩

/-- The set with these words; bits beyond the last cell are dropped. -/
def ofWords (lo hi : UInt64) : Beepers := ⟨lo, hi &&& highBits⟩

def full : Beepers := ofWords 0xffffffffffffffff highBits

/-- The bit of a cell within its word. -/
def bit (c : Cell) : UInt64 :=
  if c.index.val < 64 then 1 <<< c.index.val.toUInt64 else 1 <<< (c.index.val - 64).toUInt64

def contains (b : Beepers) (c : Cell) : Bool :=
  if c.index.val < 64 then b.lo &&& bit c != 0 else b.hi &&& bit c != 0

/-- Puts a beeper on a cell; a cell that has one keeps it. -/
def insert (b : Beepers) (c : Cell) : Beepers :=
  if c.index.val < 64 then { b with lo := b.lo ||| bit c } else { b with hi := b.hi ||| bit c }

/-- Takes the beeper off a cell, if there is one. -/
def erase (b : Beepers) (c : Cell) : Beepers :=
  if c.index.val < 64 then { b with lo := b.lo &&& ~~~ bit c }
  else { b with hi := b.hi &&& ~~~ bit c }

/-- Takes the beeper off a cell that has one, and puts one on a cell that has none. -/
def toggle (b : Beepers) (c : Cell) : Beepers := if b.contains c then b.erase c else b.insert c

/-- The number of bits set in a word. -/
def ones (word : UInt64) : Nat := (List.range 64).countP fun i => word.toNat.testBit i

def count (b : Beepers) : Nat := ones b.lo + ones b.hi

end Beepers

end Karel
