import UntypedLambda.Text.Utf8

/-!
# Files

A tree of files below one folder, which is where relative paths start. Of the world outside of
that folder only this is known: it consists of folders, and nothing that is asked for by name is
there.

A path is walked component by component. Empty components and `.` stay where they are, `..` goes
to the folder above, and any other component is looked up. The first component that cannot be
followed decides the error, so `missing/` and `missing/x` are not found, and `file/` and `file/..`
go through something that is no folder. What is wrong with the path as a whole is found
before the walk.
-/

namespace UntypedLambda

open Text (Bytes)

/-- Why a file could not be read or written. -/
inductive FileError where
  | notFound
  | notFolder
  | isFolder
  | nameTooLong
  | nulInName
  | notText
  /-- Any other failure, in the words of the system. -/
  | other (text : String)
deriving DecidableEq, Repr

/-- How the error is reported. -/
def FileError.message : FileError → String
  | notFound => "No such file or directory (os error 2)"
  | notFolder => "Not a directory (os error 20)"
  | isFolder => "Is a directory (os error 21)"
  | nameTooLong => "File name too long (os error 36)"
  | nulInName => "file name contained an unexpected NUL byte"
  | notText => "stream did not contain valid UTF-8"
  | other text => text

/-- The text in the contents of a file. -/
def FileError.decode (bytes : Bytes) : Except FileError String :=
  match Text.decode? bytes with
  | none => .error .notText
  | some text => .ok text

/-- Where a file is, from the folder at which relative paths start. -/
abbrev FilePlace := List String

/-- A tree of files. Every folder on the way to a file or to one of `folders` exists. -/
structure FileTree where
  files : List (FilePlace × Bytes) := []
  folders : List FilePlace := []
deriving DecidableEq, Repr

namespace FileTree

/-! ### Paths -/

/-- Cuts a path at its slashes. -/
def splitSlashes : List Char → List (List Char)
  | [] => [[]]
  | c :: cs =>
    if c = '/' then [] :: splitSlashes cs
    else
      match splitSlashes cs with
      | [] => [[c]]
      | component :: components => (c :: component) :: components

/-- The components of a path. An absolute path has an empty one in front. -/
def components (path : String) : List String := (splitSlashes path.toList).map String.ofList

/-- A component has at most 255 bytes. -/
def longestComponent : Nat := 255

/-- A path has fewer than 4096 bytes. -/
def pathBound : Nat := 4096

/-! ### The walk -/

/-- Where a walk has come to. -/
inductive Location where
  | file (place : FilePlace) (contents : Bytes)
  | folder (place : FilePlace)
  /-- Some folder that is not in the tree. -/
  | outside
deriving DecidableEq, Repr

/-- Whether there is a folder at a place. -/
def isFolder (tree : FileTree) (place : FilePlace) : Bool :=
  place.isEmpty || tree.folders.any (place.isPrefixOf ·) ||
    tree.files.any fun (file, _) ↦ place.isPrefixOf file && place.length < file.length

/-- What is at a place. -/
def lookup (tree : FileTree) (place : FilePlace) : Except FileError Location :=
  match tree.files.lookup place with
  | some contents => .ok (.file place contents)
  | none => if tree.isFolder place then .ok (.folder place) else .error .notFound

/-- Follows one component. -/
def enter (tree : FileTree) (location : Location) (component : String) :
    Except FileError Location :=
  match location with
  | .file _ _ => .error .notFolder
  | .folder place =>
    if component = "" || component = "." then .ok location
    else if component = ".." then
      .ok (if place.isEmpty then .outside else .folder place.dropLast)
    else if longestComponent < component.utf8ByteSize then .error .nameTooLong
    else tree.lookup (place ++ [component])
  | .outside =>
    if component = "" || component = "." || component = ".." then .ok .outside
    else if longestComponent < component.utf8ByteSize then .error .nameTooLong
    else .error .notFound

/-- Follows the components of a path one after another. -/
def walk (tree : FileTree) : Location → List String → Except FileError Location
  | location, [] => .ok location
  | location, component :: rest =>
    match tree.enter location component with
    | .error cause => .error cause
    | .ok next => tree.walk next rest

/-- Where a path starts. -/
def start (path : String) : Location :=
  match path.toList with
  | '/' :: _ => .outside
  | _ => .folder []

/-- What is wrong with a path whatever the files are. -/
def pathFault? (path : String) : Option FileError :=
  if path.toList.contains '\x00' then some .nulInName
  else if path.isEmpty then some .notFound
  else if pathBound ≤ path.utf8ByteSize then some .nameTooLong
  else none

/-! ### Reading and writing -/

/-- The contents of the file at a path. -/
def read (tree : FileTree) (path : String) : Except FileError Bytes :=
  match pathFault? path with
  | some cause => .error cause
  | none =>
    match tree.walk (start path) (components path) with
    | .error cause => .error cause
    | .ok (.file _ contents) => .ok contents
    | .ok _ => .error .isFolder

/-- Puts contents at a place, instead of those that were there. -/
def put (tree : FileTree) (place : FilePlace) (contents : Bytes) : FileTree :=
  { tree with files := (place, contents) :: tree.files.filter (·.1 != place) }

/-- Writes the file at a path. The folder that it is in has to exist. -/
def write (tree : FileTree) (path : String) (contents : Bytes) : Except FileError FileTree :=
  match pathFault? path with
  | some cause => .error cause
  | none =>
    match tree.walk (start path) (components path).dropLast with
    | .error cause => .error cause
    | .ok folder =>
      match folder, tree.enter folder ((components path).getLastD "") with
      | _, .ok (.file place _) => .ok (tree.put place contents)
      | _, .ok _ => .error .isFolder
      | .folder place, .error .notFound =>
        .ok (tree.put (place ++ [(components path).getLastD ""]) contents)
      | _, .error cause => .error cause

/-! ### Planting -/

/-- Makes the folders that are missing on a walk. -/
def makeFolders (tree : FileTree) : Location → List String → Except FileError FileTree
  | _, [] => .ok tree
  | location, component :: rest =>
    match location, tree.enter location component with
    | _, .ok next => tree.makeFolders next rest
    | .folder place, .error .notFound =>
      let made := place ++ [component]
      makeFolders { tree with folders := made :: tree.folders } (.folder made) rest
    | _, .error cause => .error cause

/-- Writes the file at a path after making the folders on the way to it. -/
def plant (tree : FileTree) (path : String) (contents : Bytes) : Except FileError FileTree :=
  match tree.makeFolders (start path) (components path).dropLast with
  | .error cause => .error cause
  | .ok grown => grown.write path contents

end FileTree

end UntypedLambda
