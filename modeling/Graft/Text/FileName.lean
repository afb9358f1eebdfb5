import Graft.Text.Blank

/-!
# File names

Paths of files as what stands between their slashes. A part that is empty or a single dot is no step
of a path, except for a dot in front of everything, which names the directory one is in. Nothing of
a path is lost, so what is told about a file shows its path as it was given.
-/

namespace Graft

structure FileName where
  /-- Whether the path starts at the root. -/
  absolute : Bool
  /-- What stands between the slashes, without the slash of the root. -/
  parts : List String
  deriving DecidableEq, Repr, Inhabited

namespace FileName

def parse (text : String) : FileName :=
  match (splitAtChar '/' text.toList).map String.ofList with
  | "" :: s :: rest => ⟨true, s :: rest⟩
  | parts => ⟨false, parts⟩

def text (f : FileName) : String :=
  (if f.absolute then "/" else "") ++ String.intercalate "/" f.parts

/-- Whether a part leads nowhere: nothing between two slashes, or a single dot. -/
def isIdle (part : String) : Bool := part = "" || part = "."

/-- Whether a part is a step of a path, given the parts before it. -/
def isStep (absolute : Bool) (before : List String) (part : String) : Bool :=
  !isIdle part || (part = "." && !absolute && before.isEmpty)

/-- The beginnings of a path that end with a step, the longest first. Everything is backwards. -/
def beginnings (absolute : Bool) : List String → List (List String)
  | [] => []
  | s :: before =>
    if isStep absolute before s then (s :: before) :: beginnings absolute before
    else beginnings absolute before

/-- The last step, unless it is made of dots that lead to a directory. -/
def base? (f : FileName) : Option String :=
  match beginnings f.absolute f.parts.reverse with
  | (s :: _) :: _ => if s = "." ∨ s = ".." then none else some s
  | _ => none

/-- A name cut at its last dot; a dot in front of everything cuts nothing off. -/
def cutExtension (base : String) : String × Option String :=
  let backwards := base.toList.reverse
  let after := backwards.takeWhile (· ≠ '.')
  match backwards.drop after.length with
  | _ :: c :: before => (String.ofList (c :: before).reverse, some (String.ofList after.reverse))
  | _ => (base, none)

def extension? (f : FileName) : Option String := f.base?.bind fun b => (cutExtension b).2

/-- The last step without its extension. -/
def stem? (f : FileName) : Option String := f.base?.map fun b => (cutExtension b).1

/-- The directories that the path of a file goes through, the nearest first. The last one is the
root, or the directory that the path starts in. -/
def directories (f : FileName) : List FileName :=
  ((beginnings f.absolute f.parts.reverse).drop 1).map (fun b => ⟨f.absolute, b.reverse⟩) ++
    [⟨f.absolute, []⟩]

/-- The file called `name` in a directory. -/
def child (directory : FileName) (name : String) : FileName :=
  { directory with parts := directory.parts ++ [name] }

/-- The files called `name` next to a file and in the directories that its path goes through. -/
def beside (f : FileName) (name : String) : List FileName := f.directories.map fun d => d.child name

end FileName

end Graft
