import Karel.CommandLine.App
import Karel.CommandLine.Arguments
import Karel.CommandLine.Folder
import Karel.CommandLine.Value
import Karel.Diagnostic
import Karel.Display.Animator
import Karel.Display.Slot
import Karel.Executable.Basic
import Karel.Executable.Compile
import Karel.Executable.Names
import Karel.Execution.Control
import Karel.Execution.Log
import Karel.Execution.Machine
import Karel.Execution.Run
import Karel.Execution.Session
import Karel.Execution.Verdict
import Karel.Fault
import Karel.Grid.Beepers
import Karel.Grid.Cell
import Karel.Grid.Direction
import Karel.Grid.FloorPlan
import Karel.Main
import Karel.Source.Cursor
import Karel.Source.Lexeme
import Karel.Source.Position
import Karel.Source.Program
import Karel.Source.ReadCondition
import Karel.Source.ReadProgram
import Karel.Source.ReadStatement
import Karel.Source.Token
import Karel.Text.Blank
import Karel.Text.Lines
import Karel.Text.Numeral
import Karel.Vocabulary
import Karel.World.Basic
import Karel.World.Edit
import Karel.World.Picture
import Karel.Proofs.Execution.Fate
import Karel.Proofs.Executable.Linked
import Karel.Proofs.Execution.Invariant
import Karel.Proofs.Execution.Undisturbed
import Karel.Proofs.Execution.Controlled
import Karel.Proofs.Execution.Sleep
import Karel.Proofs.Execution.Stepping
import Karel.Proofs.Execution.Walk
import Karel.Proofs.Execution.Limits
import Karel.Proofs.Source.Count
import Karel.Proofs.Source.Grammar
import Karel.Proofs.Source.Unread
import Karel.Proofs.Source.Lexing
import Karel.Proofs.Source.ConditionGrammar
import Karel.Proofs.Source.StatementGrammar
import Karel.Proofs.Source.ProgramGrammar
import Karel.Proofs.Source.Honest
import Karel.Proofs.Source.InvalidText
import Karel.Proofs.Source.Unlimited
import Karel.Proofs.Source.Prompt
import Karel.Proofs.Source.ViablePrefix
import Karel.Proofs.Execution.Halting
import Karel.Proofs.Execution.Stack
import Karel.Proofs.Executable.WellNamed
import Karel.Proofs.Executable.ReadBack
import Karel.Proofs.Execution.Agreement
import Karel.Proofs.Execution.Replacement
import Karel.Proofs.Execution.Unrolling
import Karel.Proofs.Execution.StraightLine
import Karel.Proofs.Source.Nesting
import Karel.Proofs.Source.Tiling
import Karel.Proofs.Source.Printing
import Karel.Proofs.Source.Relocation
import Karel.Proofs.Executable.Flat
import Karel.Proofs.Execution.Layout
import Karel.Proofs.Grid.Edges
import Karel.Proofs.World.Reversal
import Karel.Proofs.Execution.Inlining
import Karel.Proofs.Executable.Renumbering
import Karel.Proofs.Execution.DeclarationOrder
import Karel.Proofs.World.BeeperCells
import Karel.Proofs.Display.Watching
import Karel.Proofs.Execution.Conservation
import Karel.Proofs.Source.Descent
import Karel.Proofs.Source.DescentEnds
import Karel.Proofs.Display.Looking
import Karel.Proofs.World.Picture
import Karel.Proofs.Text.Lines
import Karel.Proofs.Source.Places
import Karel.Proofs.CommandLine.Caret
import Karel.Proofs.CommandLine.Values
import Karel.Proofs.CommandLine.StartWorld
import Karel.Proofs.Source.CountRange
import Karel.Proofs.Execution.Deciding
