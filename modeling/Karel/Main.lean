import Karel.CommandLine.App

/-! # The program

Reads the words of the command line and the file they name, and prints what the command says.
-/

namespace Karel.CommandLine

def readSource (name : String) : IO (Except ReadError String) := do
  if let some e := pathError? name then return .error e
  try
    let bytes ← IO.FS.readBinFile name
    return decodeText bytes
  catch e =>
    match e with
    | .noFileOrDirectory _ _ _ => return .error .missing
    | .inappropriateType _ code _ =>
      return .error (if code == 20 then .notADirectory else .isADirectory)
    | _ => throw e

def helpText : String :=
  "Compile and run Karel programs\n\n"
    ++ "Usage: karel check [--entry NAME] FILE\n"
    ++ "       karel run [--entry NAME] [--at X,Y,DIR] [--beeper X,Y]... [--fill] [--delay MS]\n"
    ++ "                 [--steps N] [--depth N] [--quiet] FILE\n"

def noticeText : Notice → String
  | .help => helpText
  | .version => "karel 0.1.0\n"

def usageText : UsageError → String
  | .nothingAsked => helpText
  | .asked notice => noticeText notice
  | .unknownCommand => "error: unrecognized command, expected check or run\n"
  | .unknownArgument => "error: unexpected argument\n"
  | .missingValue => "error: a value is required\n"
  | .unwantedValue => "error: unexpected value\n"
  | .givenTwice => "error: an argument cannot be used multiple times\n"
  | .badValue e => s!"error: invalid value: {e.message}\n"
  | .missingFile => "error: the required argument <FILE> was not provided\n"

def showFrames (out : IO.FS.Stream) (pause : Nat) (frames : List String) : IO Unit :=
  frames.forM fun frame => do
    out.putStr frame
    out.flush
    IO.sleep pause.toUInt32

def runWords (words : List String) : IO UInt32 := do
  let out ← IO.getStdout
  let err ← IO.getStderr
  match Invocation.ofWords words with
  | .error (.asked notice) =>
    out.putStr (noticeText notice)
    return 0
  | .error e =>
    err.putStr (usageText e)
    return 2
  | .ok invocation =>
    let printed := conclude (invocation.perform (← readSource invocation.file))
    showFrames out invocation.pause printed.frames
    out.putStr printed.stdout
    out.flush
    err.putStr printed.stderr
    return printed.exit.toUInt32

end Karel.CommandLine

def main (words : List String) : IO UInt32 := Karel.CommandLine.runWords words
