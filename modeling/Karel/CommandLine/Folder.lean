/-! # Folders

A folder is a set of files with paths relative to it. Reading a path walks down its parts: empty
parts and single dots stay, double dots go up, and the walk may not pass through a file. What lies
above the folder is not known, except that it is made of folders. A path holds no null character
and is shorter than 4096 bytes, and a part of it has at most 255.
-/

namespace Karel.CommandLine

inductive ReadError where
  | missing
  | notADirectory
  | isADirectory
  | notText
  | nameTooLong
  | nullInName
  deriving DecidableEq

def ReadError.message : ReadError → String
  | .missing => "No such file or directory (os error 2)"
  | .notADirectory => "Not a directory (os error 20)"
  | .isADirectory => "Is a directory (os error 21)"
  | .notText => "stream did not contain valid UTF-8"
  | .nameTooLong => "File name too long (os error 36)"
  | .nullInName => "file name contained an unexpected NUL byte"

def pathParts (path : String) : List String := path.splitOn "/"

def pathSteps (path : String) : List String :=
  (pathParts path).filter fun part => part != "" && part != "."

/-- Why a path cannot be looked up at all. -/
def pathError? (path : String) : Option ReadError :=
  if path.toList.any (fun c => c.toNat = 0) then some .nullInName
  else if path.utf8ByteSize ≥ 4096 then some .nameTooLong
  else none

def isTooLong (part : String) : Bool := part.utf8ByteSize > 255

structure Folder where
  files : List (String × ByteArray)

namespace Folder

def file? (f : Folder) (parts : List String) : Option ByteArray :=
  (f.files.find? fun (name, _) => pathSteps name == parts).map (·.2)

def hasFolder (f : Folder) (parts : List String) : Bool :=
  f.files.any fun (name, _) => parts.isPrefixOf (pathSteps name)

/-- Walks on above the folder, where no name is known. -/
def outside : List String → ReadError
  | [] => .isADirectory
  | part :: rest =>
    if part == "" || part == "." || part == ".." then outside rest
    else if isTooLong part then .nameTooLong
    else .missing

/-- Walks down the parts of a path from the place `here`. -/
def walk (f : Folder) (here : List String) : List String → Except ReadError ByteArray
  | [] => .error .isADirectory
  | part :: rest =>
    if part == "" || part == "." then f.walk here rest
    else if part == ".." then
      if here.isEmpty then .error (outside rest) else f.walk here.dropLast rest
    else if isTooLong part then .error .nameTooLong
    else
      let there := here ++ [part]
      match f.file? there with
      | some bytes => if rest.isEmpty then .ok bytes else .error .notADirectory
      | none => if f.hasFolder there then f.walk there rest else .error .missing

def readBytes (f : Folder) (path : String) : Except ReadError ByteArray :=
  match pathError? path, pathParts path with
  | some e, _ => .error e
  | none, "" :: rest => if path.isEmpty then .error .missing else .error (outside rest)
  | none, parts => f.walk [] parts

end Folder

/-- The text that bytes stand for in UTF-8. -/
def decodeText (bytes : ByteArray) : Except ReadError String :=
  match String.fromUTF8? bytes with
  | some text => .ok text
  | none => .error .notText

def Folder.readText (f : Folder) (path : String) : Except ReadError String :=
  (f.readBytes path).bind decodeText

end Karel.CommandLine
