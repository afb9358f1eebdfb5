import Graft.CommandLine.Options
import Graft.FileTree
import Graft.Module

/-!
# Performing commands

What a command prints and how it ends, given what can be read. Problems with the source are told by
their headlines. A command that fails ends with the code 1.
-/

namespace Graft

/-- What a command can see around it. -/
structure Surroundings where
  /-- The text of the file at a path. -/
  read : String → Except ReadProblem String
  /-- The value of the variable that turns tracing on or off, if it has one. -/
  debugVariable : Option String := none

/-- Whether there is something at a path, a file or a directory. -/
def Surroundings.isThere (s : Surroundings) (path : String) : Bool :=
  match s.read path with
  | .ok _ => true
  | .error p => !p.isAbsence

/-- What a command did. -/
structure Report where
  code : Nat := 0
  /-- What it printed as its result. -/
  out : String := ""
  /-- The lines that it printed besides. -/
  err : List String := []
  deriving Inhabited

namespace Diagnostic

/-- The first line of a diagnostic that is shown with its place in the source. -/
def heading (d : Diagnostic) : String :=
  match d.severity with
  | .error => "Error: " ++ d.message
  | .warning => "Warning: " ++ d.message

/-- The lines of a diagnostic that is shown without a source. -/
def plainLines (d : Diagnostic) : List String :=
  ["error: " ++ d.headline] ++ d.notes.map ("  note: " ++ ·) ++
    d.help.toList.map ("  help: " ++ ·)

end Diagnostic

namespace Command

def unreadable (file : String) (p : ReadProblem) : String :=
  "cannot read '" ++ file ++ "': " ++ p.message

/-- The files that settings may be read from; the first one that is there counts. -/
def settingsFiles (c : Command) : List String :=
  match c.config with
  | some file => [file]
  | none => ((FileName.parse c.input).beside Settings.fileName).map FileName.text

/-- All files that the command may read. -/
def files (c : Command) : List String := c.input :: c.settingsFiles

/-! ## Jobs -/

structure Job.State where
  world : World := {}
  out : String := ""
  err : List String := []
  deriving Inhabited

/-- A part of a command; if it stops, the command fails. -/
abbrev Job := ExceptT Unit (StateM Job.State)

namespace Job

variable {α : Type}

def print (text : String) : Job Unit := modify fun s => { s with out := s.out ++ text }

def printLine (text : String) : Job Unit := print (text ++ "\n")

def tell (line : String) : Job Unit := modify fun s => { s with err := s.err ++ [line] }

def tellAll (lines : List String) : Job Unit := modify fun s => { s with err := s.err ++ lines }

def stop : Job α := throw ()

/-- Tells what is wrong and stops. -/
def fail (lines : List String) : Job α := do
  tellAll lines
  stop

/-- How a line of the trace is told. -/
def traceLine (line : String) : String := "fastats: " ++ line

/-- Acts in the world, and tells the trace of it. -/
def attempt (x : Act α) : Job (Except Diagnostic α) := do
  let s ← get
  let (r, w) := x.run.run s.world
  set { s with world := { w with trace := [] }, err := s.err ++ w.trace.reverse.map traceLine }
  match r with
  | .ok a => return .ok a
  | .error (.report d) => return .error d
  | .error .exhausted => fail ["error: out of steps"]

/-- Looks at the world. -/
def look (f : World → α) : Job α := return f (← get).world

end Job

/-! ## Loading -/

/-- The settings for a command. -/
def settings (c : Command) (s : Surroundings) : Except String Settings := do
  let read (file : String) : Except String Settings :=
    match s.read file with
    | .error p => .error (unreadable file p)
    | .ok text =>
      match Settings.parse text with
      | .ok settings => .ok settings
      | .error d => .error d.message
  let found ← match c.config with
    | some file => read file
    | none =>
      match c.settingsFiles.find? s.isThere with
      | some file => read file
      | none => .ok {}
  let settings := found.withDebugVariable s.debugVariable
  return { settings with debug := settings.debug || c.debug }

/-- Loads the module that a command is about. -/
def load (c : Command) (s : Surroundings) : Job Module := do
  let file := FileName.parse c.input
  unless file.extension? = some "fst" do Job.fail ["error: input must be a .fst file"]
  match c.settings s with
  | .error message => Job.fail ["error: " ++ message]
  | .ok settings =>
    modify fun t => { t with world := { t.world with settings } }
    match s.read c.input with
    | .error p => Job.fail ["Error: " ++ unreadable c.input p]
    | .ok source =>
      match ← Job.attempt (Module.loadFile (file.stem?.getD "main") c.input source) with
      | .ok (.ok m) => return m
      | .ok (.error reports) => Job.fail (reports.map Diagnostic.heading)
      | .error d => Job.fail [d.heading]

/-- Tells a problem with a module: with its place if it has one. -/
def failAt {α : Type} (m : Module) (d : Diagnostic) : Job α :=
  if m.sources.isEmpty || d.span.isDummy then Job.fail d.plainLines else Job.fail [d.heading]

/-- Acts in the world, and stops if that fails. -/
def actOn {α : Type} (m : Module) (x : Act α) : Job α := do
  match ← Job.attempt x with
  | .ok a => return a
  | .error d => failAt m d

/-! ## Words -/

/-- What stands on the right of an override: a function of the module or a library function. -/
def replacement (m : Module) (target : String) : Job Callable := do
  match cutAtChar? '.' target.toList with
  | none =>
    match ← Job.look fun w => m.callable w target with
    | .ok c => return c
    | .error d => failAt m d
  | some (library, name) =>
    match Native.member? (String.ofList library) (String.ofList name) with
    | some n => return .native n
    | none => Job.fail ["error: `" ++ target ++ "` is not a library function"]

/-- Reads an override `name=target`. -/
def override (m : Module) (word : String) : Job (String × Callable) := do
  match cutAtChar? '=' word.toList with
  | none => Job.fail ["error: override '" ++ word ++ "' is not of the form name=target"]
  | some (name, target) =>
    let c ← replacement m (String.ofList target)
    return (String.ofList (trimBlank name), c)

def overrides (m : Module) : List String → Job (List (String × Callable))
  | [] => return []
  | word :: rest => do
    let entry ← override m word
    return entry :: (← overrides m rest)

/-- The value of an argument, which is an expression over the module. -/
def argument (m : Module) (word : String) : Job Value := do
  match Program.parse ("const ARG = " ++ word) with
  | .error reports => Job.fail (reports.map Diagnostic.heading)
  | .ok p =>
    match p.items with
    | .constant _ e _ :: _ =>
      match ← Job.attempt (Act.evalConstant m.home e) with
      | .ok v => return v
      | .error d => Job.fail [d.heading]
    | _ => Job.fail ["error: cannot read argument '" ++ word ++ "'"]

def arguments (m : Module) : List String → Job (List Value)
  | [] => return []
  | word :: rest => do
    let v ← argument m word
    return v :: (← arguments m rest)

/-! ## Tasks -/

def run (m : Module) (function : String) (args overrideWords : List String)
    (returnCallable : Bool) : Job Unit := do
  let g ← actOn m (m.gateway function)
  let values ← arguments m args
  let ks : Keywords := [("return_callable", .flag returnCallable)]
  let given ← overrides m overrideWords
  match ← actOn m (g.call values (ks ++ .ofOverrides given)) with
  | .value v => Job.printLine v.text
  | .artifact a =>
    Job.printLine (a.display ++ s!" ({a.arity} argument(s))")
    for (name, digest) in a.callees do
      Job.printLine ("  " ++ digest.display ++ " " ++ name)

/-- The callables of a module by increasing names. -/
def callables (m : Module) (w : World) : List (String × Callable) :=
  (m.names w).filterMap fun name =>
    match m.get? w name with
    | some (.callable c) => some (name, c)
    | _ => none

/-- Compiles one function; gives whether that is an error. A function that cannot be compiled can
still be run, so that is a warning. -/
def checkOne (f : Function) : Job Bool := do
  match ← Job.attempt f.compile with
  | .ok _ => return false
  | .error d =>
    if d.kind = .unsupported then
      Job.tell { d with severity := .warning }.heading
      return false
    else
      Job.tell d.heading
      return true

/-- Compiles functions one after another; gives how many of them had errors. -/
def checkAll : List Function → Job Nat
  | [] => return 0
  | f :: rest => do
    let wrong ← checkOne f
    let more ← checkAll rest
    return if wrong then more + 1 else more

def check (c : Command) (m : Module) : Job Unit := do
  let functions ← Job.look fun w => (callables m w).filterMap fun (_, f) => f.plain?
  let errors ← checkAll functions
  if errors = 0 then Job.tell ("OK: " ++ c.input ++ s!" ({functions.length} function(s))")
  else Job.stop

def graph (m : Module) (function : String) (dot : Bool) : Job Unit := do
  let found ← Job.look fun w => m.function w function
  let f ← match found with
    | .ok f => pure f
    | .error d => failAt m d
  let g ← actOn m (do Run.ofExcept (CallGraph.build (← get) f []))
  if dot then Job.print g.dot
  else
    for name in g.reachable do Job.printLine name
    Job.tell s!"{g.reachable.length} function(s), {g.edges.length} call edge(s)"
    match g.findCycle with
    | some cycle => Job.tell ("warning: recursive call graph: " ++ Calls.chain cycle)
    | none => pure ()

def explain (m : Module) (function : String) (overrideWords : List String) : Job Unit := do
  let g ← actOn m (m.gateway function)
  let given ← overrides m overrideWords
  Job.print (← actOn m (g.explain (.ofOverrides given)))

def isPrimitive : Callable → Bool
  | .native _ => true
  | _ => false

def hash (c : Command) (m : Module) (full : Bool) : Job Unit := do
  Job.tell ("Module: " ++ m.name ++ " " ++ c.input)
  for (name, callable) in ← Job.look (callables m) do
    unless isPrimitive callable do
      let digest := callable.fingerprint
      Job.printLine ("  " ++ (if full then digest.hex else digest.display) ++ " " ++ name)

def job (c : Command) (s : Surroundings) : Job Unit := do
  let m ← c.load s
  match c.task with
  | .run f args words returnCallable => run m f args words returnCallable
  | .check => c.check m
  | .graph f dot => graph m f dot
  | .explain f words => explain m f words
  | .hash full => c.hash m full

/-- Performs a command. -/
def perform (c : Command) (s : Surroundings) : Report :=
  let (r, t) := (c.job s).run.run {}
  match r with
  | .ok () => ⟨0, t.out, t.err⟩
  | .error () => ⟨1, t.out, t.err⟩

/-- Performs a command line. One that says nothing sensible ends with the code 2. -/
def performWords (words : List String) (s : Surroundings) : Report :=
  match parse words with
  | .ok c => c.perform s
  | .error p => { code := 2, err := ["error: " ++ p.message] }

end Command

end Graft
