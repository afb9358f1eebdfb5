import Graft.Span

/-!
# Diagnostics

What is reported when something is wrong: how bad it is, of which kind, where, and in which words.
Reading, running, substituting and compiling all report through this one type.
-/

namespace Graft

/-- An error stops the work, a warning does not. -/
inductive Severity where
  | error
  | warning
  deriving DecidableEq, Repr

/-- The kinds that a caller may want to tell apart. -/
inductive Kind where
  /-- The text is not a program. -/
  | malformed
  /-- A name stands for nothing. -/
  | name
  /-- A value or a callable is of the wrong sort. -/
  | type
  /-- The request lies outside what the library does. -/
  | unsupported
  /-- A unit does not hold the definition that it was taken for. -/
  | definitionNotFound
  /-- A function body failed while it ran. -/
  | runtime
  deriving DecidableEq, Repr

/-- The words for a kind. -/
def Kind.text : Kind → String
  | .malformed => "syntax error"
  | .name => "name error"
  | .type => "type error"
  | .unsupported => "unsupported"
  | .definitionNotFound => "definition not found"
  | .runtime => "runtime error"

structure Diagnostic where
  severity : Severity := .error
  kind : Kind
  message : String
  span : Span
  notes : List String := []
  help : Option String := none
  deriving DecidableEq, Repr

namespace Diagnostic

/-- An error of the given kind that stands nowhere yet. -/
def of (kind : Kind) (message : String) : Diagnostic := { kind, message, span := .dummy }

/-- The same diagnostic at `span`. -/
def locate (d : Diagnostic) (span : Span) : Diagnostic := { d with span }

def withNote (d : Diagnostic) (note : String) : Diagnostic := { d with notes := d.notes ++ [note] }

def withHelp (d : Diagnostic) (help : String) : Diagnostic := { d with help := some help }

def withKind (d : Diagnostic) (kind : Kind) : Diagnostic := { d with kind }

/-- Gives a place to a diagnostic that has none; the innermost place wins. -/
def orSpan (d : Diagnostic) (span : Span) : Diagnostic := { d with span := d.span.orElse span }

/-- One line for the whole diagnostic. -/
def headline (d : Diagnostic) : String := d.kind.text ++ ": " ++ d.message

@[simp] theorem orSpan_message (d : Diagnostic) (s : Span) : (d.orSpan s).message = d.message := rfl

@[simp] theorem orSpan_kind (d : Diagnostic) (s : Span) : (d.orSpan s).kind = d.kind := rfl

/-- A place once given stays. -/
theorem orSpan_orSpan (d : Diagnostic) {s : Span} (t : Span) (h : s.isDummy = false) :
    (d.orSpan s).orSpan t = d.orSpan s := by
  by_cases hd : d.span.isDummy = true <;> simp [orSpan, Span.orElse, hd, h]

end Diagnostic

end Graft
