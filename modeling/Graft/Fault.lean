import Graft.Value.Basic

/-!
# Running

How a run can end other than with a value: with a report, or because it used up the steps that it
was given. The two are kept apart, since only the first says something about the program.
-/

namespace Graft

inductive Fault where
  | report (d : Diagnostic)
  /-- A loop or a chain of calls went on for longer than was allowed. -/
  | exhausted
  deriving DecidableEq, Repr

/-- Changes the report, if there is one. -/
def Fault.map (f : Diagnostic → Diagnostic) : Fault → Fault
  | .report d => .report (f d)
  | .exhausted => .exhausted

/-- A run over a state `σ`, which is kept also when the run fails. -/
abbrev Run (σ : Type) := ExceptT Fault (StateM σ)

namespace Run

variable {σ α : Type}

/-- Fails with a report. -/
def fail (d : Diagnostic) : Run σ α := throw (.report d)

/-- A step that may fail but neither reads nor writes the state. -/
def ofOutcome (o : Outcome α) : Run σ α :=
  match o with
  | .ok a => pure a
  | .error d => fail d

def ofExcept (o : Except Fault α) : Run σ α :=
  match o with
  | .ok a => pure a
  | .error e => throw e

/-- Changes the report of a run that fails. -/
def mapReport (f : Diagnostic → Diagnostic) (x : Run σ α) : Run σ α :=
  tryCatch x fun e => throw (e.map f)

/-- Gives a place to the report of a run, unless it has one. -/
def orSpan (span : Span) (x : Run σ α) : Run σ α := mapReport (·.orSpan span) x

end Run

/-- More steps than any run takes in practice: `2 ^ 62`. -/
def ampleFuel : Nat := 0x4000000000000000

end Graft
