/-
# File trees

A file tree holds files and directories at places. A place is reached from the
working directory, or from the root of the file system, and places above the
working directory are known only by how far they are above it. The working
directory, everything above it, and the root are directories without being
listed.

A path is followed component by component from directory to directory. Nothing
is found below a place that does not exist, not even its parent, and nothing
below a file. When a tree is laid out, on the other hand, the directories on
the way to a file are made.
-/

import Resolvent.Files.FileError
import Resolvent.Files.Path

namespace Resolvent

/-- Where following a path begins. -/
inductive Origin
  | root
  /-- The directory so many levels above the working directory. -/
  | above (levels : Nat)
  deriving DecidableEq

/-- A place in the file system: the names that lead to it. -/
structure Place where
  origin : Origin
  names : List String := []
  deriving DecidableEq

namespace Place

/-- The working directory. -/
def here : Place :=
  ⟨.above 0, []⟩

/-- The place of a name in a directory. -/
def child (place : Place) (name : String) : Place :=
  { place with names := place.names ++ [name] }

/-- The directory that a place lies in. The root lies in itself. -/
def parent (place : Place) : Place :=
  match place.names, place.origin with
  | [], .root => place
  | [], .above levels => ⟨.above (levels + 1), []⟩
  | names, origin => ⟨origin, names.dropLast⟩

end Place

/-- The bytes of each file by its place, and the places of directories. -/
structure FileTree where
  files : List (Place × List UInt8) := []
  directories : List Place := []

/-- The greatest number of bytes in a name. -/
def nameLimit : Nat := 255

/-- The greatest number of bytes in a path. -/
def pathLimit : Nat := 4095

namespace FileTree

/-- The contents of the file at a place. -/
def file? (tree : FileTree) (place : Place) : Option (List UInt8) :=
  (tree.files.find? (·.1 = place)).map (·.2)

/-- Whether a place is a directory. -/
def isDirectory (tree : FileTree) (place : Place) : Bool :=
  place.names = [] || place ∈ tree.directories

/-- The tree with a file of the given contents, in the place of an older one if
there is one. -/
def put (tree : FileTree) (place : Place) (contents : List UInt8) : FileTree :=
  { tree with
    files :=
      if tree.files.any (·.1 = place) then
        tree.files.map fun entry => if entry.1 = place then (place, contents) else entry
      else tree.files ++ [(place, contents)] }

/-- Go on to a component of a path, which only a directory allows. -/
def enter (tree : FileTree) (place : Place) (name : String) : Except FileError.Cause Place :=
  if tree.isDirectory place then
    if name = "" ∨ name = "." then .ok place
    else if name = ".." then .ok place.parent
    else if name.utf8ByteSize > nameLimit then .error .nameTooLong
    else .ok (place.child name)
  else if (tree.file? place).isSome then .error .notDirectory
  else .error .notFound

/-- Follow components from a place. Whether there is anything at the end of the
path is left open. -/
def follow (tree : FileTree) (place : Place) (names : List String) :
    Except FileError.Cause Place :=
  names.foldlM tree.enter place

/-- The place where following a path begins. -/
def origin (path : String) : Place :=
  if Path.isAbsolute path then ⟨.root, []⟩ else .here

/-- Refuse a path that is no path, is too long, or is empty. -/
def screen (path : String) : Except OpenError Unit :=
  if '\x00' ∈ path.toList then .error .nullCharacter
  else if path.utf8ByteSize > pathLimit then .error (.refused ⟨.nameTooLong, path⟩)
  else if path = "" then .error (.refused ⟨.notFound, path⟩)
  else .ok ()

/-- The bytes of the file that a path leads to. -/
def read (tree : FileTree) (path : String) : Except OpenError (List UInt8) := do
  screen path
  let found : Except FileError.Cause (List UInt8) := do
    let place ← tree.follow (origin path) (Path.components path)
    if tree.isDirectory place then throw .isDirectory
    match tree.file? place with
    | some contents => return contents
    | none => throw .notFound
  found.mapError fun cause => .refused ⟨cause, path⟩

/-- The place that a path leads to for writing. The last component has to be a
name that may stand for a file in an existing directory; behind a trailing
slash it can only be a directory. -/
def target (tree : FileTree) (path : String) : Except FileError.Cause Place := do
  let names := Path.components path
  let trailing := names.getLast? = some ""
  let names := (names.reverse.dropWhile (· = "")).reverse
  match names.getLast? with
  | none => throw .isDirectory
  | some last =>
    if last = "." ∨ last = ".." then
      let place ← tree.follow (origin path) names
      let _ ← tree.enter place ""
      throw .isDirectory
    else
      let directory ← tree.follow (origin path) names.dropLast
      let _ ← tree.enter directory ""
      if trailing then throw .isDirectory
      let place ← tree.enter directory last
      if tree.isDirectory place then throw .isDirectory
      return place

/-- The tree after a file has been written. -/
def write (tree : FileTree) (path : String) (contents : List UInt8) :
    Except OpenError FileTree := do
  screen path
  let place ← (tree.target path).mapError fun cause => .refused ⟨cause, path⟩
  return tree.put place contents

/-- The files in the working directory and below, by their paths from it. -/
def listing (tree : FileTree) : List (String × List UInt8) :=
  tree.files.filterMap fun (place, contents) =>
    if place.origin = .above 0 then some (Text.separated "/" place.names, contents) else none

/-! ### Laying out a tree -/

/-- Go on to a component of a path, making the directory if there is none. -/
def reach (tree : FileTree) (place : Place) (name : String) : FileTree × Place :=
  if name = "" ∨ name = "." then (tree, place)
  else if name = ".." then (tree, place.parent)
  else
    let place := place.child name
    if tree.isDirectory place then (tree, place)
    else ({ tree with directories := tree.directories ++ [place] }, place)

/-- The tree with a file at the end of a path and the directories on the way to
it. A path that ends at a directory makes that directory only. -/
def plant (tree : FileTree) (path : String) (contents : List UInt8) : FileTree :=
  let names := Path.components path
  let (tree, directory) :=
    names.dropLast.foldl (fun (tree, place) name => tree.reach place name) (tree, origin path)
  match names.getLast? with
  | none | some "" | some "." | some ".." => tree
  | some name => tree.put (directory.child name) contents

/-- The tree whose files have the given paths. -/
def ofFiles (files : List (String × List UInt8)) : FileTree :=
  files.foldl (fun tree (path, contents) => tree.plant path contents) {}

end FileTree

end Resolvent
