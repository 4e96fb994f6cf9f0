/-
The files that the tool works on.

A tree is files with their contents.  Paths are walked part by part from the
folder the tool runs in, or from the root; a path that leads through
something that is no folder leads nowhere.
-/
import Beautifier.Text.Blank
import Beautifier.Text.Utf8

namespace Beautifier

inductive ReadError where
  | missing
  | isFolder
  | notAFolder
  | badName
  /-- The contents are not UTF-8. -/
  | notText
deriving DecidableEq, Repr

def ReadError.message : ReadError → String
  | missing => "No such file or directory (os error 2)"
  | isFolder => "Is a directory (os error 21)"
  | notAFolder => "Not a directory (os error 20)"
  | badName => "file name contained an unexpected NUL byte"
  | notText => "stream did not contain valid UTF-8"

/-- A place in a tree: names to follow from the root, or from the folder `up` folders above the
one the tool runs in. -/
structure Location where
  rooted : Bool
  up : Nat
  names : List String
deriving DecidableEq, Repr

namespace Location

/-- The names in a path; a slash at its end counts as one more name, `.`. -/
def namesOf (path : String) : List String :=
  let names := ((pieces (· == '/') path.toList).map String.ofList).filter (· != "")
  if path.toList.getLast? = some '/' then names ++ ["."] else names

def origin (path : String) : Location := ⟨path.toList.head? == some '/', 0, []⟩

/-- One name further. -/
def enter (l : Location) (name : String) : Location :=
  if name == "." then l
  else if name == ".." then
    if !l.names.isEmpty then { l with names := l.names.dropLast }
    else if l.rooted then l
    else { l with up := l.up + 1 }
  else { l with names := l.names ++ [name] }

def ofPath (path : String) : Location := (namesOf path).foldl enter (origin path)

def isBelow (l folder : Location) : Bool :=
  l.rooted == folder.rooted && l.up == folder.up
    && folder.names.isPrefixOf l.names && folder.names.length < l.names.length

end Location

/-- Files with their contents, and folders that may be empty. -/
structure FileTree where
  files : List (String × List UInt8)
  folders : List String
deriving DecidableEq, Repr

namespace FileTree

/-- The number of bytes in all files. -/
def size (t : FileTree) : Nat := t.files.foldr (fun f n => f.2.length + n) 0

def file? (t : FileTree) (l : Location) : Option (List UInt8) :=
  (t.files.find? fun f => Location.ofPath f.1 == l).map (·.2)

/-- Whether a place is a folder: a place to start from, one with a file below, or one known. -/
def isFolder (t : FileTree) (l : Location) : Bool :=
  l.names.isEmpty || t.files.any (fun f => (Location.ofPath f.1).isBelow l)
    || t.folders.any (fun f => Location.ofPath f == l)

/-- Why a place is no folder, if it is none. -/
def folderError? (t : FileTree) (l : Location) : Option ReadError :=
  if t.isFolder l then none else if (t.file? l).isSome then some .notAFolder else some .missing

/-- The place that names lead to from a place. -/
def walk (t : FileTree) (l : Location) : List String → Except ReadError Location
  | [] => .ok l
  | name :: rest =>
      match t.folderError? l with
      | some e => .error e
      | none => walk t (l.enter name) rest

def locate (t : FileTree) (path : String) : Except ReadError Location :=
  if path == "" then .error .missing
  else if path.toList.contains '\x00' then .error .badName
  else t.walk (Location.origin path) (Location.namesOf path)

def read (t : FileTree) (path : String) : Except ReadError (List UInt8) :=
  match t.locate path with
  | .error e => .error e
  | .ok l =>
      match t.file? l with
      | some bytes => .ok bytes
      | none => .error (if t.isFolder l then .isFolder else .missing)

def readText (t : FileTree) (path : String) : Except ReadError String :=
  match t.read path with
  | .error e => .error e
  | .ok bytes =>
      match Utf8.decode bytes with
      | .ok text => .ok text
      | .error _ => .error .notText

/-- The tree with other contents in the file that a path leads to. -/
def write (t : FileTree) (path : String) (bytes : List UInt8) : FileTree :=
  match t.locate path with
  | .error _ => t
  | .ok l =>
      { t with files := t.files.map fun f =>
          if Location.ofPath f.1 == l then (f.1, bytes) else f }

end FileTree

end Beautifier
