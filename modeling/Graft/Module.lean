import Graft.Gateway.Call
import Graft.Tree.Parser

/-!
# Modules

A module is a namespace together with the texts that its definitions were read from. Reading a text
binds functions and imports first, so that a constant can call any function of the text; a function
with the marker `fs` is bound as a gateway. What is wrong with single items is collected, and the
other items stay bound.
-/

namespace Graft

structure Module where
  name : String
  home : NamespaceId
  /-- In the order in which they were read. -/
  sources : List SourceText := []
  deriving Inhabited

/-- What reading items did: the names that it bound, and what was wrong. -/
structure Loaded where
  names : List String := []
  reports : List Diagnostic := []
  deriving Inhabited

def Loaded.append (a b : Loaded) : Loaded := ⟨a.names ++ b.names, a.reports ++ b.reports⟩

/-! ## Constants -/

/-- A function without parameters whose value is that of an expression. -/
def Definition.ofConstant (e : Expr) : Definition :=
  { name := ⟨"<const>", .dummy⟩, params := [], body := .mk [] (some e) .dummy }

/-- The value of an expression in a namespace. -/
def Act.evalConstant (home : NamespaceId) (e : Expr) : Act Value := do
  let id ← Act.freshId
  (Callable.function (.build id (.ofConstant e) .interactive home [])).call []

namespace Item

def notInLibrary (p : Path) (span : Span) : Diagnostic :=
  ((Diagnostic.of .name ("`" ++ p.dotted ++ "` is not in the library")).locate span).withHelp
    libraryHelp

def notImportable (p : Path) (span : Span) : Diagnostic :=
  (Diagnostic.of .name ("cannot import `" ++ p.dotted ++ "`")).locate span

/-- What a path imports, and under which name. -/
def imported (p : Path) (span : Span) : Outcome (String × Global) :=
  match p.rest with
  | [name] =>
    match Native.member? p.first name, Native.constant? p.first name with
    | some n, _ => .ok (name, .callable (.native n))
    | none, some v => .ok (name, .constant v)
    | none, none => .error (notInLibrary p span)
  | _ => .error (notImportable p span)

/-- What a definition binds its name to. -/
def callableOf (home : NamespaceId) (d : Definition) (origin : Origin) : Act Callable := do
  let f : Function := .build (← Act.freshId) d origin home []
  if d.isMarked "fs" then return .gateway ⟨← Act.freshId, f⟩ else return .function f

def bindName (home : NamespaceId) (name : String) (g : Global) : Act Loaded := do
  modify fun w => w.define home name g
  return { names := [name] }

/-- Binds a function or an import. -/
def declare (home : NamespaceId) (origin : Span → Origin) : Item → Act Loaded
  | .function d span => do
    bindName home d.name.text (.callable (← callableOf home d (origin span)))
  | .import_ p pathSpan _ =>
    match imported p pathSpan with
    | .ok (name, g) => bindName home name g
    | .error d => return { reports := [d] }
  | .constant .. => return {}

/-- Binds a constant. -/
def evaluate (home : NamespaceId) : Item → Act Loaded
  | .constant name e _ =>
    tryCatch (do bindName home name.text (.constant (← Act.evalConstant home e))) fun
      | .report d => return { reports := [d.orSpan e.span] }
      | .exhausted => throw .exhausted
  | _ => return {}

def each (step : Item → Act Loaded) : List Item → Act Loaded
  | [] => return {}
  | item :: rest => do return (← step item).append (← each step rest)

end Item

/-- Binds the items of a text in a namespace. -/
def Program.bindItems (p : Program) (home : NamespaceId) (origin : Span → Origin) : Act Loaded := do
  let declared ← Item.each (Item.declare home origin) p.items
  let evaluated ← Item.each (Item.evaluate home) p.items
  return declared.append evaluated

namespace Module

/-- The result of a step of loading, which may report any number of problems. -/
abbrev Checked (α : Type) := Except (List Diagnostic) α

/-! ## Loading -/

/-- A module without any names. -/
def empty (name : String) : Act Module := do
  let (home, w) := (← get).addNamespace name
  set w
  return { name, home }

def readItems (m : Module) (source : String) (origin : Span → Origin) :
    Act (Checked (List String)) := do
  match Program.parse source with
  | .error reports => return .error reports
  | .ok p =>
    let loaded ← p.bindItems m.home origin
    return if loaded.reports.isEmpty then .ok loaded.names else .error loaded.reports

/-- Reads more source into a module, which keeps the text; gives the names that were bound. -/
def extend (m : Module) (file : String) (source : String) :
    Act (Checked (Module × List String)) := do
  let text : SourceText := ⟨file, source⟩
  match ← m.readItems source (.source text) with
  | .ok names => return .ok ({ m with sources := m.sources ++ [text] }, names)
  | .error reports => return .error reports

/-- Reads source that is not kept. -/
def evaluate (m : Module) (source : String) : Act (Checked (List String)) :=
  m.readItems source fun _ => .interactive

/-- Reads the source of a new module. If something is wrong with it, nothing of the module stays. -/
def loadFile (name file source : String) : Act (Checked Module) := do
  let m ← Module.empty name
  match ← m.extend file source with
  | .ok (m, _) => return .ok m
  | .error reports =>
    modify fun w => w.drop m.home
    return .error reports

/-- The name of the file that a module of this name is read from. -/
def fileName (name : String) : String := name ++ ".fst"

def load (name source : String) : Act (Checked Module) := loadFile name (fileName name) source

/-! ## Bindings -/

def undefined (m : Module) (name : String) : Diagnostic :=
  .of .name ("`" ++ name ++ "` is not defined in module `" ++ m.name ++ "`")

def notPlain (name : String) (c : Callable) : Diagnostic :=
  .of .type ("`" ++ name ++ "` is bound to a " ++ c.kind)

def notSpecializable (name : String) (c : Callable) : Diagnostic :=
  .of .type ("`" ++ name ++ "` is a " ++ c.kind ++ " and cannot be specialized")

def get? (m : Module) (w : World) (name : String) : Option Global := w.lookup m.home name

/-- The names that the module binds, in increasing order. -/
def names (m : Module) (w : World) : List String :=
  match w.namespace? m.home with
  | some ns => ns.names
  | none => []

def constant? (m : Module) (w : World) (name : String) : Option Value :=
  match m.get? w name with
  | some (.constant v) => some v
  | _ => none

/-- What a name is bound to, which must be callable. -/
def callable (m : Module) (w : World) (name : String) : Outcome Callable :=
  match m.get? w name with
  | some (.callable c) => .ok c
  | some (.constant v) => .error (Calls.notAFunction name v .dummy)
  | none => .error (m.undefined name)

/-- The plain function that a name is bound to; a gateway stands for its function. -/
def function (m : Module) (w : World) (name : String) : Outcome Function := do
  let c ← m.callable w name
  match c.plain? with
  | some f => .ok f
  | none => .error (notPlain name c)

/-- The gateway that a name is bound to; a plain function is wrapped. -/
def gateway (m : Module) (name : String) : Act Gateway := do
  match ← Run.ofOutcome (m.callable (← get) name) with
  | .gateway g => return g
  | .function f => return ⟨← Act.freshId, f⟩
  | c => Run.fail (notSpecializable name c)

def define (m : Module) (name : String) (g : Global) : Act Unit :=
  modify fun w => w.define m.home name g

/-- Removes a name; gives what it was bound to. -/
def remove (m : Module) (name : String) : Act (Option Global) := do
  let w ← get
  set (w.remove m.home name)
  return m.get? w name

/-- Sets how deep calls from functions of the module may be nested. -/
def limitRecursion (m : Module) (limit : Nat) : Act Unit :=
  modify fun w => w.update m.home fun ns => { ns with maxRecursion := limit }

/-- Calls what a name is bound to. -/
def call (m : Module) (name : String) (args : List Value) : Act Value := do
  (← Run.ofOutcome (m.callable (← get) name)).call args

/-- Ends a module. Functions that it defined notice when they need it. -/
def drop (m : Module) : Act Unit := modify fun w => w.drop m.home

end Module

end Graft
