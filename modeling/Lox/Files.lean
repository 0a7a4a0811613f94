import Lox.Path

/-! The files that a command can see. -/
namespace Lox

/-- What stands at a path. -/
inductive FileEntry where
  | missing
  /-- A part of the path that should be a directory is none. -/
  | notDirectory
  | directory
  | file (content : Bytes)
  deriving DecidableEq

/-- What stands at each path. -/
abbrev Files := Bytes → FileEntry

/-- Why a file cannot be read. -/
inductive FileError where
  | missing
  | notDirectory
  | isDirectory
  deriving DecidableEq, Repr

def FileError.reason : FileError → String
  | missing => "no such file or directory"
  | notDirectory => "not a directory"
  | isDirectory => "is a directory"

/-- The error with the step that failed: a directory can be opened but not read. -/
def FileError.message (path : Bytes) (e : FileError) : Bytes :=
  utf8 (if e = isDirectory then "read " else "open ") ++ path ++ utf8 ": " ++ utf8 e.reason

namespace Files

def isFile (files : Files) (path : Bytes) : Bool :=
  match files path with
  | .file _ => true
  | _ => false

def read (files : Files) (path : Bytes) : Except FileError Bytes :=
  match files path with
  | .file content => .ok content
  | .directory => .error .isDirectory
  | .notDirectory => .error .notDirectory
  | .missing => .error .missing

/-- What stands at the place with the given parts, last one first. -/
def entryAt (listing : List (List Bytes × Option Bytes)) (place : List Bytes) : FileEntry :=
  match listing.find? fun (parts, _) => parts == place.reverse with
  | some (_, some content) => .file content
  | some (_, none) => .directory
  | none =>
    if place.isEmpty || listing.any fun (parts, _) => place.reverse.isPrefixOf parts then
      .directory
    else .missing

/-- Follows the parts of a path from a place. -/
def walk (listing : List (List Bytes × Option Bytes)) : (place : List Bytes) → List Bytes →
    FileEntry
  | place, [] => entryAt listing place
  | place, part :: parts =>
    match entryAt listing place with
    | .directory =>
      if part.isEmpty || part == utf8 "." then walk listing place parts
      else if part == utf8 ".." then walk listing (place.drop 1) parts
      else walk listing (part :: place) parts
    | .file _ => .notDirectory
    | other => other

/-- The files of a listing, seen from its top: paths with contents, and directories. -/
def ofListing (listing : List (Bytes × Option Bytes)) : Files :=
  let placed := listing.map fun (path, content) =>
    ((Path.parts (Path.clean path)), content)
  fun path =>
    if path.isEmpty then .missing
    else if path.head? == some (ascii '/') then
      if path.all (· == ascii '/') then .directory else .missing
    else walk placed [] (Path.parts path)

end Files
end Lox
