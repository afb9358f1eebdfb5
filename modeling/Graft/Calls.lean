import Graft.Callable

/-!
# Reports about calls

What can be wrong with a name that is read or called. Evaluation and compilation use the same words.
-/

namespace Graft

/-- The names of the library modules. -/
def libraryModules : List String := ["math", "array"]

def libraryHelp : String := "library modules are: " ++ String.intercalate ", " libraryModules

namespace Calls

def undefinedName (name : String) (span : Span) : Diagnostic :=
  (Diagnostic.of .name ("name `" ++ name ++ "` is not defined")).locate span

def notAValue (c : Callable) (span : Span) : Diagnostic :=
  (Diagnostic.of .type (c.describe ++ " cannot be used as a value")).locate span

def notAFunction (name : String) (v : Value) (span : Span) : Diagnostic :=
  (Diagnostic.of .type ("`" ++ name ++ "` is a " ++ v.sort ++ ", not a function")).locate span

def undefinedFunction (name : String) (span : Span) : Diagnostic :=
  (Diagnostic.of .name ("function `" ++ name ++ "` is not defined")).locate span

def notInLibrary (p : Path) (span : Span) : Diagnostic :=
  ((Diagnostic.of .name ("`" ++ p.dotted ++ "` is not a library function")).locate
    span).withHelp libraryHelp

def unknownFunctionPath (p : Path) (span : Span) : Diagnostic :=
  (Diagnostic.of .name ("unknown function path `" ++ p.dotted ++ "`")).locate span

/-- The primitive that a qualified path names. -/
def member? (p : Path) (span : Span) : Outcome Native :=
  match p.rest with
  | [name] =>
    match Native.member? p.first name with
    | some n => .ok n
    | none => .error (notInLibrary p span)
  | _ => .error (unknownFunctionPath p span)

/-- A chain of calls that comes back to its first function. -/
def chain (names : List String) : String := String.intercalate " -> " names

end Calls

end Graft
