import QLisp.Text.Utf8

/-! Source files: how they are found, and what is left of one that begins with an interpreter line. -/

namespace QLisp

/-- Why a file cannot be read. -/
inductive FileFault where
  | missing | notDirectory | isDirectory | nameTooLong | invalidName
  /-- A reason given by the system. -/
  | system (action reason : String)
  deriving DecidableEq, Repr

namespace FileFault

/-- What was being done when the fault showed. -/
def action : FileFault → String
  | .isDirectory => "read"
  | .system action _ => action
  | _ => "open"

/-- The wording of a fault. -/
def reason : FileFault → String
  | .missing => "no such file or directory"
  | .notDirectory => "not a directory"
  | .isDirectory => "is a directory"
  | .nameTooLong => "file name too long"
  | .invalidName => "invalid argument"
  | .system _ reason => reason

/-- A fault as it is reported for a path. -/
def message (fault : FileFault) (path : Text.Bytes) : Text.Bytes :=
  Text.encode (fault.action ++ " ") ++ path ++ Text.encode (": " ++ fault.reason)

end FileFault

/-- What each path holds. -/
abbrev Files := Text.Bytes → Except FileFault Text.Bytes

/-- The bytes of a source file after its first line, if that line names an interpreter. -/
def withoutInterpreterLine : Text.Bytes → Text.Bytes
  | 0x23 :: 0x21 :: rest => (rest.dropWhile (· ≠ 0x0A)).drop 1
  | bytes => bytes

/-- A directory as the list of its files, each with its path and contents. -/
abbrev Directory := List (Text.Bytes × Text.Bytes)

namespace Directory

/-- Where a walk along a path stands. -/
inductive Place where
  /-- At a file. -/
  | file (contents : Text.Bytes)
  /-- At the directory or at one in it, reached by the given names. -/
  | inside (names : List Text.Bytes)
  /-- At a directory elsewhere, in which no file is known. -/
  | outside
  deriving DecidableEq, Repr

namespace Place

/-- The place one level up; above the topmost directory is that directory again. -/
def parent : Place → Place
  | .inside names => if names.isEmpty then .outside else .inside names.dropLast
  | place => place

/-- What can be read at a place. -/
def contents : Place → Except FileFault Text.Bytes
  | .file contents => .ok contents
  | _ => .error .isDirectory

end Place

/-- The names in a path, between its slashes. -/
def namesIn (path : Text.Bytes) : List Text.Bytes :=
  path.splitOn 0x2F

/-- What stands at the end of a sequence of names. -/
def place? (files : Directory) (names : List Text.Bytes) : Option Place :=
  match files.find? (fun (path, _) => namesIn path == names) with
  | some (_, contents) => some (.file contents)
  | none =>
    -- A directory is there because some file is in it.
    if files.any (fun (path, _) => names.isPrefixOf (namesIn path)) then some (.inside names)
    else none

/-- The longest name, in bytes, that a file can have. -/
def nameLimit : Nat := 255

/-- The longest path, in bytes, that is followed at all. -/
def pathLimit : Nat := 4095

/-- Follows one name of a path. -/
def step (files : Directory) (here : Place) (name : Text.Bytes) : Except FileFault Place :=
  match here with
  | .file _ => .error .notDirectory
  | _ =>
    -- A file system has the directory itself and the one above it under names of their own.
    if name = [] || name = Text.encode "." then .ok here
    else if name = Text.encode ".." then .ok here.parent
    -- A name too long is refused before it is looked for.
    else if nameLimit < name.length then .error .nameTooLong
    else match here with
      | .inside names =>
        match files.place? (names ++ [name]) with
        | some found => .ok found
        | none => .error .missing
      | _ => .error .missing

/-- Where a path begins: at the top of all directories after a slash, else at the directory. -/
def origin (path : Text.Bytes) : Place :=
  if path.head? = some 0x2F then .outside else .inside []

/-- Reads a path relative to a directory. -/
def read (files : Directory) : Files := fun path =>
  if path.contains 0 then .error .invalidName
  else if path.isEmpty then .error .missing
  else if pathLimit < path.length then .error .nameTooLong
  else do
    let place ← (namesIn path).foldlM files.step (origin path)
    place.contents

end Directory
end QLisp
