import Karel.Display.Slot
import Karel.Execution.Control

/-! # The animator

The animator looks at the slot again and again and draws every snapshot that it has not drawn yet.
It knows a snapshot by its number, so it draws an equal world once more if it was published once
more. A frame is drawn by several requests to a screen, and any of them may fail. A drawing that
fails is not counted as drawn, though it has used up its frame number.

It goes on until it is told that nothing more will come, and since it asks before it looks, the last
snapshot is never missed. If a drawing fails it gives up and cancels the run that it follows.
-/

namespace Karel

/-- What a screen is asked for: to take a text, or to show all that it has taken. -/
inductive Screen.Request where
  | write (text : String)
  | flush
  deriving DecidableEq

/-- Something to draw on. A request is served, or it fails on the way. -/
structure Screen (σ : Type) where
  serve : σ → Screen.Request → Except σ σ

namespace Screen

/-- One request after the other, until one fails. -/
def serveAll {σ : Type} (screen : Screen σ) (s : σ) (requests : List Request) : Except σ σ :=
  requests.foldlM screen.serve s

/-- What has been written on a sheet of paper, and the number of characters that still fit, if that
is limited. -/
structure Sheet where
  text : String
  room : Option Nat
  deriving DecidableEq

def Sheet.blank (room : Option Nat) : Sheet := ⟨"", room⟩

/-- Writing on a sheet takes as much as fits, and fails if that is not all. -/
def sheet : Screen Sheet where
  serve
    | s, .write text =>
      match s.room with
      | none => .ok { s with text := s.text ++ text }
      | some room =>
        let shown := s.text ++ String.ofList (text.toList.take room)
        if text.length ≤ room then .ok ⟨shown, some (room - text.length)⟩
        else .error ⟨shown, some 0⟩
    | s, .flush => .ok s

/-- The page that is being written, and the pile of those that are done with the latest on top. -/
structure Pages where
  page : String := ""
  pile : List String := []

/-- A page is done when it is shown. -/
def pages : Screen Pages where
  serve
    | s, .write text => .ok { s with page := s.page ++ text }
    | s, .flush => .ok { pile := s.page :: s.pile }

end Screen

inductive Drawing where
  | idle
  | drawn
  | failed
  deriving DecidableEq

/-- The snapshot drawn last and the number of frames begun. -/
structure Animator where
  shown : Option Snapshot := none
  frames : Nat := 0
  deriving DecidableEq

namespace Animator

/-- A frame: the screen is cleared, and the frame's number and the world's picture are written. -/
def frame (number : Nat) (w : World) : List Screen.Request :=
  [.write "\x1b[2J\x1b[H", .write s!"frame {number}\n", .write (w.picture ++ "\n"), .flush]

/-- Draws the snapshot of the slot, unless it is the one drawn last. -/
def refresh {σ : Type} (screen : Screen σ) (a : Animator) (slot : Slot) (s : σ) :
    Drawing × Animator × σ :=
  if a.shown.any slot.shows then (.idle, a, s)
  else
    let frames := a.frames + 1
    match screen.serveAll s (frame frames slot.world) with
    | .ok s => (.drawn, ⟨some slot.current, frames⟩, s)
    | .error s => (.failed, { a with frames }, s)

/-- A round of watching: the worlds that are published before the animator asks whether the run is
over, the answer, and the worlds that are published before it looks at the slot. -/
structure Round where
  before : List World := []
  runEnded : Bool
  between : List World := []

structure Watch (σ : Type) where
  slot : Slot
  animator : Animator
  screen : σ
  /-- How many times the animator has asked. -/
  asked : Nat := 0
  /-- Whether drawing failed; `none` as long as the animator goes on. -/
  ended : Option Bool := none

def round {σ : Type} (screen : Screen σ) (w : Watch σ) (r : Round) : Watch σ :=
  let slot := (w.slot.publishAll r.before).publishAll r.between
  match w.animator.refresh screen slot w.screen with
  | (.failed, animator, s) => ⟨slot, animator, s, w.asked + 1, some true⟩
  | (_, animator, s) => ⟨slot, animator, s, w.asked + 1, if r.runEnded then some false else none⟩

def watch {σ : Type} (screen : Screen σ) (w : Watch σ) : List Round → Watch σ
  | [] => w
  | r :: rs =>
    let w := round screen w r
    if w.ended.isSome then w else watch screen w rs

/-- Watches a run that can be cancelled, and cancels it if drawing fails. -/
def watchRun {σ : Type} (screen : Screen σ) (w : Watch σ) (control : Control)
    (rounds : List Round) : Watch σ × Control :=
  let w := watch screen w rounds
  (w, if w.ended = some true then Signal.cancel.apply control else control)

/-- The rounds in which one world after the other is published, each seen on its own, before the run
is over. -/
def Round.oneByOne (worlds : List World) : List Round :=
  { runEnded := false } :: worlds.map (fun w => { before := [w], runEnded := false })
    ++ [{ runEnded := true }]

def film (first : World) (worlds : List World) : List String :=
  (watch Screen.pages ⟨.new first, {}, {}, 0, none⟩ (Round.oneByOne worlds)).screen.pile.reverse

end Animator

end Karel
