import Karel.CommandLine.Value
import Karel.Execution.Machine

/-! # Arguments of the command line

The words after the program's name are a command, `check` or `run`, its options and one file. The
words are taken from left to right. The value of an option and the file are held back until the next
option or file, or the end, settles them; a word that fits nowhere is refused at once, so such a
refusal comes before that of a value still held back. After `--` every word is a file. That the file
is missing shows only at the end.

Everywhere before `--` the words `--help` and `-h` ask for a text instead, and so do `--version` and
`-V` before the command. What is held back is settled first; no word after such a question is read.
-/

namespace Karel.CommandLine

/-- An option that asks for a text and leaves nothing to do. -/
inductive Notice where
  | help
  | version
  deriving DecidableEq

inductive UsageError where
  | nothingAsked
  | asked (notice : Notice)
  | unknownCommand
  /-- A word that is no option, or one file too many. -/
  | unknownArgument
  /-- An option that lacks its value, or a file without a name. -/
  | missingValue
  /-- A switch or a question that was given a value. -/
  | unwantedValue
  | givenTwice
  | badValue (error : ValueError)
  | missingFile
  deriving DecidableEq

inductive Setting where
  | entry
  | pose
  | beeper
  | delay
  | steps
  | depth
  deriving DecidableEq

inductive Switch where
  | fill
  | quiet
  deriving DecidableEq

def Setting.word : Setting → String
  | .entry => "entry"
  | .pose => "at"
  | .beeper => "beeper"
  | .delay => "delay"
  | .steps => "steps"
  | .depth => "depth"

def Switch.word : Switch → String
  | .fill => "fill"
  | .quiet => "quiet"

def Notice.word : Notice → String
  | .help => "help"
  | .version => "version"

def Notice.letter : Notice → Char
  | .help => 'h'
  | .version => 'V'

structure Options where
  settings : List Setting := []
  switches : List Switch := []
  notices : List Notice := [.help]

def Options.leading : Options := { notices := [.help, .version] }

def Options.check : Options := { settings := [.entry] }

def Options.run : Options where
  settings := [.entry, .pose, .beeper, .delay, .steps, .depth]
  switches := [.fill, .quiet]

structure Draft where
  file : Option String := none
  entry : Option String := none
  pose : Option Pose := none
  beepers : List Cell := []
  fill : Bool := false
  delay : Option Nat := none
  steps : Option Nat := none
  depth : Option Nat := none
  quiet : Bool := false

namespace Draft

/-- Whether an option has its value and may not have another. -/
def has (d : Draft) : Setting → Bool
  | .entry => d.entry.isSome
  | .pose => d.pose.isSome
  | .beeper => false
  | .delay => d.delay.isSome
  | .steps => d.steps.isSome
  | .depth => d.depth.isSome

def read (d : Draft) (s : Setting) (value : String) : Except ValueError Draft :=
  match s with
  | .entry => .ok { d with entry := some value }
  | .pose => (readPose value).map fun p => { d with pose := some p }
  | .beeper => (readCell value).map fun c => { d with beepers := d.beepers ++ [c] }
  | .delay => (readNumber value).map fun n => { d with delay := some n }
  | .steps => (readNumber value).map fun n => { d with steps := some n }
  | .depth => (readNumber value).map fun n => { d with depth := some n }

def set (d : Draft) (s : Setting) (value : String) : Except UsageError Draft :=
  if d.has s then .error .givenTwice
  else
    match d.read s value with
    | .ok d => .ok d
    | .error e => .error (.badValue e)

def turnOn (d : Draft) (s : Switch) : Except UsageError Draft :=
  match s with
  | .fill => if d.fill then .error .givenTwice else .ok { d with fill := true }
  | .quiet => if d.quiet then .error .givenTwice else .ok { d with quiet := true }

def setFile (d : Draft) (name : String) : Except UsageError Draft :=
  if name.isEmpty then .error .missingValue else .ok { d with file := some name }

end Draft

inductive Held where
  | nothing
  | setting (setting : Setting) (value : Option String)
  | file (name : String)

/-- What a word is by its looks. -/
inductive Word where
  | divider
  | setting (setting : Setting) (value : Option String)
  | switch (switch : Switch) (value : Option String)
  | notice (notice : Notice) (value : Option String)
  | unknown
  | plain
  deriving DecidableEq

/-- The option that a word after two dashes names, with a value after an equals sign. -/
def Options.recognise (o : Options) (body : List Char) : Word :=
  let name := String.ofList (body.takeWhile (· != '='))
  let value := match body.dropWhile (· != '=') with
    | [] => none
    | _ :: value => some (String.ofList value)
  match o.settings.find? (fun s => s.word == name), o.switches.find? (fun s => s.word == name),
    o.notices.find? (fun n => n.word == name) with
  | some s, _, _ => .setting s value
  | none, some s, _ => .switch s value
  | none, none, some n => .notice n value
  | none, none, none => .unknown

def Options.recogniseLetter (o : Options) (letter : Char) : Word :=
  match o.notices.find? (fun n => n.letter == letter) with
  | some n => .notice n none
  | none => .unknown

/-- What a word is by the options that are known. A single dash is a plain word. Of several letters
after one dash the first decides. -/
def Options.classify (o : Options) (text : String) : Word :=
  match text.toList with
  | ['-', '-'] => .divider
  | '-' :: '-' :: body => o.recognise body
  | ['-'] => .plain
  | '-' :: letter :: _ => o.recogniseLetter letter
  | _ => .plain

/-- The state while words are taken: what is settled, what is held back, whether the file has been
seen, and whether only files follow. -/
structure Intake where
  draft : Draft := {}
  held : Held := .nothing
  fileSeen : Bool := false
  filesOnly : Bool := false

namespace Intake

def settle (s : Intake) : Except UsageError Draft :=
  match s.held with
  | .nothing => .ok s.draft
  | .setting _ none => .error .missingValue
  | .setting o (some value) => s.draft.set o value
  | .file name => s.draft.setFile name

def takeFile (s : Intake) (text : String) : Except UsageError Intake :=
  if s.fileSeen then .error .unknownArgument
  else do
    let draft ← s.settle
    return { s with draft, held := .file text, fileSeen := true }

/-- Takes a word that is no option: the value that an option waits for, else the file. -/
def takePlain (s : Intake) (text : String) : Except UsageError Intake :=
  match s.held with
  | .setting o none => .ok { s with held := .setting o (some text) }
  | _ => s.takeFile text

def take (o : Options) (s : Intake) (text : String) : Except UsageError Intake :=
  if s.filesOnly then s.takeFile text
  else
    match o.classify text with
    | .divider => .ok { s with filesOnly := true }
    | .unknown => .error .unknownArgument
    | .plain => s.takePlain text
    | .switch _ (some _) | .notice _ (some _) => .error .unwantedValue
    | .switch w none => do
      let draft ← s.settle
      let draft ← draft.turnOn w
      return { s with draft, held := .nothing }
    | .notice n none => do
      let _ ← s.settle
      throw (.asked n)
    | .setting w none => do
      let draft ← s.settle
      return { s with draft, held := .setting w none }
    | .setting w (some value) => do
      let draft ← s.settle
      let draft ← draft.set w value
      return { s with draft, held := .nothing }

/-- Takes all words and settles what is held back in the end. -/
def takeAll (o : Options) (words : List String) : Except UsageError Draft := do
  let s ← words.foldlM (take o) {}
  s.settle

end Intake

structure RunArguments where
  file : String
  entry : Option String
  pose : Option Pose
  beepers : List Cell
  fill : Bool
  delay : Nat
  limits : Limits
  quiet : Bool

inductive Verb where
  | check
  | run
  | help
  deriving DecidableEq

def Verb.ofWord? : String → Option Verb
  | "check" => some .check
  | "run" => some .run
  | "help" => some .help
  | _ => none

inductive Invocation where
  | check (file : String) (entry : Option String)
  | run (arguments : RunArguments)

/-- The pause after an action, in milliseconds, if nothing else is said. -/
def standardDelay : Nat := 200

/-- The world on which a run starts: filled if asked, each named cell flipped, the robot placed. -/
def RunArguments.startWorld (a : RunArguments) : World :=
  let w := if a.fill then World.empty.fill else World.empty
  let w := a.beepers.foldl World.toggleBeeper w
  match a.pose with
  | some pose => w.withPose pose
  | none => w

namespace Invocation

def ofCheck (words : List String) : Except UsageError Invocation := do
  let d ← Intake.takeAll .check words
  match d.file with
  | some file => return .check file d.entry
  | none => throw .missingFile

def ofRun (words : List String) : Except UsageError Invocation := do
  let d ← Intake.takeAll .run words
  let standard : Limits := {}
  match d.file with
  | some file =>
    return .run {
      file, entry := d.entry, pose := d.pose, beepers := d.beepers, fill := d.fill
      delay := d.delay.getD standardDelay
      limits := ⟨d.steps.getD standard.budget, d.depth.getD standard.depth⟩
      quiet := d.quiet }
  | none => throw .missingFile

/-- The words after `help` may name one command to explain. -/
def ofHelp : List String → Except UsageError Invocation
  | [] => .error (.asked .help)
  | [word] => .error (if (Verb.ofWord? word).isSome then .asked .help else .unknownCommand)
  | _ => .error .unknownCommand

def ofLeading (word : String) : Except UsageError Invocation :=
  match Options.leading.classify word with
  | .notice n none => .error (.asked n)
  | .notice _ (some _) => .error .unwantedValue
  | .unknown => .error .unknownArgument
  | _ => .error .unknownCommand

/-- Reads the words after the program's name. After `--` a command is out of place. -/
def ofWords : List String → Except UsageError Invocation
  | [] | ["--"] => .error .nothingAsked
  | "--" :: word :: _ =>
    .error (if (Verb.ofWord? word).isSome then .unknownArgument else .unknownCommand)
  | word :: words =>
    match Verb.ofWord? word with
    | some .check => ofCheck words
    | some .run => ofRun words
    | some .help => ofHelp words
    | none => ofLeading word

end Invocation

end Karel.CommandLine
