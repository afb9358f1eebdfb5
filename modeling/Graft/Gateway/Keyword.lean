import Graft.Callable
import Graft.Evaluate

/-!
# Keyword arguments

What may come with a call of a gateway besides its arguments: control flags, parameters by name, and
overrides, which replace the function at every call site of their name.
-/

namespace Graft

inductive KeywordArgument where
  | flag (on : Bool)
  /-- A parameter passed by name. -/
  | value (v : Value)
  /-- A replacement for the call sites of that name. -/
  | override (c : Callable)
  deriving Inhabited

/-- Keyword arguments in the order given. -/
abbrev Keywords := List (String × KeywordArgument)

namespace Keywords

def ofOverrides (overrides : List (String × Callable)) : Keywords :=
  overrides.map fun (name, c) => (name, .override c)

end Keywords

/-- The flags that control a call. -/
inductive Control where
  /-- The specialization itself is wanted, and not its value. -/
  | returnCallable
  | debug
  deriving DecidableEq, Repr

namespace Control

def text : Control → String
  | .returnCallable => "return_callable"
  | .debug => "debug"

def all : List Control := [.returnCallable, .debug]

def ofName? (name : String) : Option Control := all.find? fun c => c.text = name

end Control

/-- Keyword arguments sorted by what they are for. -/
structure Request where
  returnCallable : Bool := false
  debug : Bool := false
  values : List (String × Value) := []
  overrides : List (String × Callable) := []
  deriving Inhabited

namespace Request

/-! ## What can be wrong -/

inductive Problem where
  | repeated (name : String)
  | unknownFlag (name : String)
  /-- An override has the name of a flag. -/
  | overriddenFlag (name : String)
  | noParameter (function name : String)
  deriving DecidableEq, Repr

/-- The report on a problem, at `span`. -/
def Problem.report (span : Span) (p : Problem) : Diagnostic :=
  match p with
  | .repeated name =>
    (Diagnostic.of .type ("keyword argument `" ++ name ++ "` given more than once")).locate span
  | .unknownFlag name =>
    ((Diagnostic.of .name ("unknown control flag `" ++ name ++ "`")).locate span).withHelp
      ("control flags are: " ++ String.intercalate ", " (Control.all.map Control.text))
  | .overriddenFlag name =>
    (Diagnostic.of .type
      ("`" ++ name ++ "` is a control flag and cannot be overridden")).locate span
  | .noParameter function name =>
    (Diagnostic.of .name
      ("`" ++ function ++ "` has no parameter named `" ++ name ++ "`")).locate span

/-! ## Sorting -/

def setFlag (r : Request) (on : Bool) : Control → Request
  | .returnCallable => { r with returnCallable := on }
  | .debug => { r with debug := on }

/-- Takes one keyword argument of a call of `f` into the request. -/
def add (f : Function) (r : Request) (name : String) :
    KeywordArgument → Except Problem Request
  | .flag on =>
    match Control.ofName? name with
    | some c => .ok (r.setFlag on c)
    | none => .error (.unknownFlag name)
  | .override c =>
    match Control.ofName? name with
    | some _ => .error (.overriddenFlag name)
    | none => .ok { r with overrides := r.overrides ++ [(name, c)] }
  | .value v =>
    if f.params.contains name then .ok { r with values := r.values ++ [(name, v)] }
    else .error (.noParameter f.name name)

/-- Takes keyword arguments into a request, after those of the names in `seen`. -/
def addAll (f : Function) (seen : List String) (r : Request) : Keywords → Except Problem Request
  | [] => .ok r
  | (name, k) :: rest =>
    if seen.contains name then .error (.repeated name)
    else
      match r.add f name k with
      | .ok r => addAll f (name :: seen) r rest
      | .error p => .error p

/-- Sorts the keyword arguments of a call of `f`. No two may have one name. -/
def ofKeywords (f : Function) (ks : Keywords) : Outcome Request :=
  match addAll f [] {} ks with
  | .ok r => .ok r
  | .error p => .error (p.report f.nameSpan)

end Request

/-! ## Arguments -/

namespace Function

def givenTwice (f : Function) (name : String) : Diagnostic :=
  (Diagnostic.of .type ("argument `" ++ name ++ "` given twice")).locate f.nameSpan

def missing (f : Function) (name : String) : Diagnostic :=
  (Diagnostic.of .type ("`" ++ f.name ++ "` is missing argument `" ++ name ++ "`")).locate
    f.nameSpan

/-- Gives a parameter its value, unless it has one. -/
def fill (f : Function) (slots : List (Option Value)) (name : String) (v : Value) :
    Outcome (List (Option Value)) :=
  let i := f.params.idxOf name
  match slots[i]? with
  | some (some _) => .error (f.givenTwice name)
  | some none => .ok (slots.set i (some v))
  | none => .ok slots

def fillAll (f : Function) (slots : List (Option Value)) :
    List (String × Value) → Outcome (List (Option Value))
  | [] => .ok slots
  | (name, v) :: rest => do f.fillAll (← f.fill slots name v) rest

/-- The values of the parameters, if all have one. -/
def collect (f : Function) : List (Option Value) → List String → Outcome (List Value)
  | some v :: slots, _ :: names => do return v :: (← f.collect slots names)
  | none :: _, name :: _ => .error (f.missing name)
  | _, _ => .ok []

/-- All arguments in the order of the parameters: those given by position come first, those given by
name fill the rest. -/
def arguments (f : Function) (args : List Value) (named : List (String × Value)) :
    Outcome (List Value) :=
  if named.isEmpty && args.length == f.arity then .ok args
  else if f.arity < args.length then .error (f.definition.wrongArity args.length)
  else do
    let slots ← f.fillAll (args.map some ++ List.replicate (f.arity - args.length) none) named
    f.collect slots f.params

end Function

end Graft
