import Scoresheet.Fault
import Scoresheet.Text.Blank
/-!
# A table of files

Directories and files under one directory, in which paths are looked up as a file system
does: part by part, each part but the last a directory. The directories above the one of the table
exist as well, and nothing else in them is known.
-/
namespace Scoresheet.Command

/-- The parts of a place, seen from the directory of the table. A place above it begins with "..",
and one that is reached from the root of all directories begins with that. -/
abbrev Place : Type := List String

def upward : String := ".."

def rootName : String := "/"

/-- Whether a place is known to be a directory without a table: that of the table itself, one above
it, or the root. -/
def isAncestor (place : Place) : Bool := place == [rootName] || place.all (· == upward)

/-- The directory above a directory. The root is above itself. -/
def parent (place : Place) : Place :=
  if place == [rootName] then place
  else if isAncestor place then place ++ [upward]
  else place.dropLast

def nameBytes : Nat := 255

def pathBytes : Nat := 4095

/-- What was found by opening a file for reading. -/
inductive Opened where
  | refused (error : FileError)
  /-- It was opened, and reading it fails. -/
  | unreadable (error : FileError)
  | content (bytes : List UInt8)
deriving DecidableEq, Repr

/-- Files with their content, and directories. -/
structure FileTable where
  files : List (Place × List UInt8)
  directories : List Place
deriving DecidableEq, Repr

/-- Where a path leads. -/
inductive Location where
  | file (place : Place)
  | directory (place : Place)
  /-- Nothing is there, but the directory is. -/
  | vacant (place : Place)
  /-- The directory is there, and the name is too long for anything in it. -/
  | overlong
  | lost (error : FileError)
deriving DecidableEq, Repr

def pathParts (path : String) : List String :=
  (Text.pieces (· == '/') path.toList).map String.ofList

/-- Where a path begins: one that begins with a slash at the root. -/
def startOf (path : String) : Place :=
  if path.toList.head? == some '/' then [rootName] else []

def isName (part : String) : Bool := part != "" && part != "." && part != upward

def advance (here : Place) (part : String) : Place :=
  if isName part then here ++ [part] else if part == upward then parent here else here

def waypoints (here : Place) : List String → List Place
  | [] => []
  | part :: rest => advance here part :: waypoints (advance here part) rest

/-- The place that a path names when all that it leads through are directories. -/
def placeOf (path : String) : Place := (pathParts path).foldl advance (startOf path)

def endsInSlash (path : String) : Bool := path.toList.getLast? == some '/'

def withoutEndSlashes (path : String) : String :=
  String.ofList (Text.dropEndWhile (· == '/') path.toList)

namespace FileTable

def isDirectory (t : FileTable) (place : Place) : Bool :=
  isAncestor place || t.directories.contains place

def content? (t : FileTable) (place : Place) : Option (List UInt8) :=
  (t.files.find? fun file => file.1 == place).map fun file => file.2

def store (t : FileTable) (place : Place) (bytes : List UInt8) : FileTable :=
  { t with files := (place, bytes) :: t.files.filter fun file => file.1 != place }

/-- The table whose files and directories are named by paths: a path makes directories of all that it
leads through. Of two files at one place the later is kept. -/
def ofPaths (files : List (String × List UInt8)) (directories : List String) : FileTable :=
  let around := files.flatMap fun file =>
    (waypoints (startOf file.1) (pathParts file.1)).dropLast
  let named := directories.flatMap fun path => waypoints (startOf path) (pathParts path)
  files.foldl (fun t file => t.store (placeOf file.1) file.2) ⟨[], named ++ around⟩

/-- Follows parts from a directory. A name is looked up only in a directory that is there. -/
def follow (t : FileTable) (here : Place) : List String → Location
  | [] => .directory here
  | part :: rest =>
    if !isName part then t.follow (advance here part) rest
    else if nameBytes < part.utf8ByteSize then
      if rest.isEmpty then .overlong else .lost .nameTooLong
    else if t.isDirectory (here ++ [part]) then t.follow (here ++ [part]) rest
    else if (t.content? (here ++ [part])).isSome then
      if rest.isEmpty then .file (here ++ [part]) else .lost .notDirectory
    else if rest.isEmpty then .vacant (here ++ [part])
    else .lost .notFound

/-- Where a path leads. A path that is too long is not followed. -/
def locate (t : FileTable) (path : String) : Location :=
  if pathBytes < path.utf8ByteSize then .lost .nameTooLong
  else t.follow (startOf path) (pathParts path)

/-- Opens a file for reading. A directory is opened as well; only reading it fails. -/
def openFile (t : FileTable) (path : String) : Opened :=
  match t.locate path with
  | .file place => .content ((t.content? place).getD [])
  | .directory _ => .unreadable .isDirectory
  | .vacant _ => .refused .notFound
  | .overlong => .refused .nameTooLong
  | .lost error => .refused error

/-- Where a file of a given path is written, whether there is one or not. A path that ends in a slash
names no file, and its last name is not looked up. -/
def writable (t : FileTable) (path : String) : Except FileError Place :=
  if pathBytes < path.utf8ByteSize then .error .nameTooLong
  else
    match t.locate (withoutEndSlashes path), endsInSlash path with
    | .lost error, _ => .error error
    | _, true => .error .isDirectory
    | .overlong, false => .error .nameTooLong
    | .directory _, false => .error .isDirectory
    | .file place, false => .ok place
    | .vacant place, false => .ok place

def read? (t : FileTable) (path : String) : Option (List UInt8) :=
  match t.openFile path with
  | .content bytes => some bytes
  | _ => none

end FileTable

end Scoresheet.Command
