import AddingCalculator.CommandLine.Interaction
import AddingCalculator.SortedMap

/-!
# Directories of files

A small file system to run commands on: a working directory that holds files and no further directories. Around it
there are only the directories and devices that every system has, where nothing else stands and nothing can be made.
-/

namespace AddingCalculator.CommandLine

structure Directory where
  files : SortedMap String ByteArray

namespace Directory

inductive Place where
  | working
  | surrounding
  | root
  | devices
  | temporary
  deriving DecidableEq

def Place.above : Place → Place
  | working | surrounding => surrounding
  | root | devices | temporary => root

inductive Location where
  | directory (place : Place)
  | file (name : String)
  | vacant (name : String)
  | nullDevice
  | elsewhere
  deriving DecidableEq

def child (d : Directory) (place : Place) (name : String) : Location :=
  match place, name with
  | .working, name => if d.files.contains name then .file name else .vacant name
  | .root, "dev" => .directory .devices
  | .root, "tmp" => .directory .temporary
  | .devices, "null" | .devices, "stdin" => .nullDevice
  | _, _ => .elsewhere

def longestName : Nat := 255

def longestPath : Nat := 4095

def enter (d : Directory) (location : Location) (part : String) : Except FileError Location :=
  match location with
  | .file _ | .nullDevice => .error .notDirectory
  | .vacant _ | .elsewhere => .error .notFound
  | .directory place =>
    if part = "" ∨ part = "." then .ok location
    else if part = ".." then .ok (.directory place.above)
    else if longestName < part.utf8ByteSize then .error .nameTooLong
    else .ok (d.child place part)

def parts (path : String) : List String :=
  (path.toList.splitOnP (· = '/')).map .ofList

def follow (d : Directory) (path : String) (parts : List String) : Except FileError Location :=
  if path = "" then .error .notFound
  else if longestPath < path.utf8ByteSize then .error .nameTooLong
  else parts.foldlM d.enter (.directory (if path.toList.head? = some '/' then .root else .working))

def locate (d : Directory) (path : String) : Except FileError Location :=
  d.follow path (parts path)

def read (d : Directory) (path : String) : Except FileError ByteArray := do
  match ← d.locate path with
  | .directory _ => .error .isDirectory
  | .vacant _ | .elsewhere => .error .notFound
  | .nullDevice => .ok .empty
  | .file name =>
    match d.files.find? name with
    | some content => .ok content
    | none => .error .notFound

def trimmed (parts : List String) : List String × Bool :=
  let kept := (parts.reverse.dropWhile (· = "")).reverse
  (kept, kept ≠ parts)

-- A path with a slash at its end is taken for a directory, whatever stands there, once the parts before its last name are
-- found to be one.
def destination (d : Directory) (path : String) : Except FileError Location :=
  match trimmed (parts path) with
  | (_, false) => d.locate path
  | (kept, true) => d.follow path (kept.dropLast ++ ["."])

def write (d : Directory) (path text : String) : Except FileError Unit × Directory :=
  match d.destination path with
  | .error e => (.error e, d)
  | .ok (.directory _) => (.error .isDirectory, d)
  | .ok .elsewhere => (.error (.other "Permission denied (os error 13)"), d)
  | .ok .nullDevice => (.ok (), d)
  | .ok (.file name) | .ok (.vacant name) => (.ok (), ⟨d.files.insert name text.toUTF8⟩)

end Directory

instance : FileSystem Directory where
  read := Directory.read
  write := Directory.write
  SameFile d path other := d.locate path = d.locate other

def Interaction.runIn (i : Interaction) (d : Directory) : Report × Directory :=
  i.runOn d

end AddingCalculator.CommandLine
