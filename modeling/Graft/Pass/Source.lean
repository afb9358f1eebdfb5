import Graft.Callable
import Graft.Tree.Parser
import Graft.Tree.Walk

/-!
# Definitions and their source

A function that was read from a text can be read from it again as a unit of one item, and a unit
that was changed can be made a function again.
-/

namespace Graft.Function

def noSource (f : Function) : Diagnostic :=
  (((Diagnostic.of .unsupported ("`" ++ f.name ++ "` has no source to specialize")).locate
    f.nameSpan).withNote "it was defined interactively").withHelp
    "load the definition from a file to specialize it"

def unreadable (f : Function) (span : Span) : Diagnostic :=
  (Diagnostic.of .unsupported ("source of `" ++ f.name ++ "` could not be re-read")).locate span

/-- Reads the item that defined a function again. Its spans count from the start of the whole
text. -/
def extract (f : Function) : Outcome Program :=
  match f.origin with
  | .interactive => .error f.noSource
  | .source file span =>
    match Program.ofScan (Scan.range file.text span.start span.stop) with
    | .ok unit => .ok unit
    | .error reports => .error (reports.headD (f.unreadable span))

def notADefinition (span : Span) : Diagnostic :=
  (Diagnostic.of .unsupported "rewritten unit does not start with a function definition").locate
    span

def emptyUnit (f : Function) : Diagnostic :=
  (Diagnostic.of .unsupported "rewritten unit is empty").locate f.nameSpan

def lostDefinition (f : Function) : Diagnostic :=
  (Diagnostic.of .definitionNotFound
    ("definition of `" ++ f.name ++ "` not found in rewritten unit")).locate f.nameSpan

/-- Where the item that defined a function starts. -/
def declaredAt (f : Function) : Option Nat :=
  match f.origin with
  | .source _ span => some span.start
  | .interactive => none

/-- The definition in a unit that has the name of the function and starts where it does. -/
def locate? (f : Function) (unit : Program) : Option Definition :=
  unit.items.findSome? fun
    | .function d span =>
      if d.name.text = f.name ∧ (f.declaredAt = none ∨ f.declaredAt = some span.start) then some d
      else none
    | _ => none

/-- Gives the span of the body to every expression without one. -/
def fixSpans (d : Definition) : Definition :=
  let fix (e : Expr) : Id Expr := if e.span.isDummy then e.withSpan d.body.span else e
  { d with body := (d.body.mapM fix).run }

/-- The definition that a changed unit holds for a function. The marker `fs` goes, so that the
result is a plain function. -/
def definitionIn (f : Function) (unit : Program) : Outcome Definition :=
  match unit.items with
  | [] => .error f.emptyUnit
  | .function _ _ :: _ =>
    match f.locate? unit with
    | some d => .ok (fixSpans { d with markers := d.markers.filter fun m => m.text ≠ "fs" })
    | none => .error f.lostDefinition
  | item :: _ => .error (notADefinition item.span)

/-- Makes a function of a changed unit; origin, namespace and captured values stay. -/
def reassemble (f : Function) (id : Nat) (unit : Program) : Outcome Function := do
  return f.withDefinition id (← f.definitionIn unit)

end Graft.Function
