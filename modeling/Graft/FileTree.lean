import Graft.Text.FileName

/-!
# Files

Why a file cannot be read, and a tree of files that is held in memory. Paths are followed in it step
by step: two dots lead to the directory above, and whatever has a slash after it has to be a
directory.
-/

namespace Graft

/-- Why a file cannot be read. -/
inductive ReadProblem where
  | missing
  | forbidden
  /-- Something that a path goes through is a file. -/
  | notDirectory
  | isDirectory
  | nameTooLong
  /-- The content is not text. -/
  | notText
  | other (description : String)
  deriving DecidableEq, Repr, Inhabited

namespace ReadProblem

def message : ReadProblem → String
  | .missing => "No such file or directory (os error 2)"
  | .forbidden => "Permission denied (os error 13)"
  | .notDirectory => "Not a directory (os error 20)"
  | .isDirectory => "Is a directory (os error 21)"
  | .nameTooLong => "File name too long (os error 36)"
  | .notText => "stream did not contain valid UTF-8"
  | .other description => description

/-- Whether nothing has the name. -/
def isAbsence : ReadProblem → Bool
  | .missing | .notDirectory | .nameTooLong => true
  | _ => false

end ReadProblem

/-- Files by their steps from the root. The directories are those that some file or `home` is in. -/
structure FileTree where
  /-- The directory that relative paths start in. -/
  home : List String
  files : List (List String × String)

namespace FileTree

/-- A tree of files that are given by their paths. -/
def ofPaths (home : List String) (files : List (String × String)) : FileTree :=
  let place (name : String) : List String :=
    let f := FileName.parse name
    (if f.absolute then [] else home) ++ f.parts.filter fun s => !FileName.isIdle s
  { home, files := files.map fun (name, text) => (place name, text) }

inductive Entry where
  | file (text : String)
  | directory
  deriving DecidableEq, Repr

/-- What there is at a place. -/
def entry? (t : FileTree) (place : List String) : Option Entry :=
  match t.files.lookup place with
  | some text => some (.file text)
  | none =>
    if place.isPrefixOf t.home || t.files.any fun f => place.isPrefixOf f.1 then some .directory
    else none

/-- The most bytes that a step can have. -/
def longestStep : Nat := 255

/-- The most bytes that a path can have. -/
def longestPath : Nat := 4095

/-- What the parts of a path lead to from a place. -/
def follow (t : FileTree) (place : List String) : List String → Except ReadProblem Entry
  | [] =>
    match t.entry? place with
    | some found => .ok found
    | none => .error .missing
  | s :: rest =>
    match t.entry? place with
    | none => .error .missing
    | some (.file _) => .error .notDirectory
    | some .directory =>
      if FileName.isIdle s then t.follow place rest
      else if s = ".." then t.follow place.dropLast rest
      else if longestStep < s.utf8ByteSize then .error .nameTooLong
      else t.follow (place ++ [s]) rest

/-- The text of the file that a path leads to. -/
def read (t : FileTree) (path : String) : Except ReadProblem String :=
  let f := FileName.parse path
  if path = "" then .error .missing
  else if longestPath < path.utf8ByteSize then .error .nameTooLong
  else
    match t.follow (if f.absolute then [] else t.home) f.parts with
    | .ok (.file text) => .ok text
    | .ok .directory => .error .isDirectory
    | .error p => .error p

end FileTree

end Graft
