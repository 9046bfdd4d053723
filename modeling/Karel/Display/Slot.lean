import Karel.World.Picture

/-! # The slot

The slot holds the world that everybody sees. Each publication is a snapshot of its own, even if
the world in it is equal to the one before; snapshots are told apart by their number. A snapshot
that was taken keeps its world, whatever is published later.
-/

namespace Karel

/-- A published world and the number of its publication. -/
structure Snapshot where
  number : Nat
  world : World
  deriving DecidableEq

structure Slot where
  current : Snapshot
  deriving DecidableEq

namespace Slot

def new (w : World) : Slot := ⟨⟨0, w⟩⟩

def world (s : Slot) : World := s.current.world

def publish (s : Slot) (w : World) : Slot := ⟨⟨s.current.number + 1, w⟩⟩

def publishAll (s : Slot) (ws : List World) : Slot := ws.foldl publish s

/-- Whether a snapshot is still the one that is published now. -/
def shows (s : Slot) (snapshot : Snapshot) : Bool := s.current.number == snapshot.number

def fields (s : Slot) : String := "WorldSlot \x7b current: " ++ s.world.fields ++ " \x7d"

end Slot

end Karel
