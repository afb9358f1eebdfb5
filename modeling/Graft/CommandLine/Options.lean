import Graft.Text.Blank

/-!
# The command line

What can be asked for, and the words for it. Options may stand before, between and after the names
of files and functions. Two hyphens end them: every word that follows is a name or an argument.

The arguments of `run` may look like options, as negative numbers do. So from the first argument on
all words are arguments, two hyphens included, and the first one may be anything but two hyphens or
an option that `run` has.
-/

namespace Graft

/-- What is to be done with a module. -/
inductive Task where
  /-- Calls a function. -/
  | run (function : String) (args : List String) (overrides : List String) (returnCallable : Bool)
  /-- Compiles every function. -/
  | check
  /-- Shows what a function reaches. -/
  | graph (function : String) (dot : Bool)
  /-- Shows the definition that overrides make of a function. -/
  | explain (function : String) (overrides : List String)
  /-- Shows the fingerprint of every function. -/
  | hash (full : Bool)
  deriving DecidableEq, Repr, Inhabited

structure Command where
  /-- The file that the module is read from. -/
  input : String
  /-- The file that the settings are read from, instead of the nearest one. -/
  config : Option String
  debug : Bool
  task : Task
  deriving DecidableEq, Repr, Inhabited

namespace Command

/-- The options that some task has. -/
inductive Switch where
  | config
  | debug
  | override
  | returnCallable
  | dot
  | full
  deriving DecidableEq, Repr

namespace Switch

def all : List Switch := [.config, .debug, .override, .returnCallable, .dot, .full]

def text : Switch → String
  | .config => "--config"
  | .debug => "--debug"
  | .override => "--override"
  | .returnCallable => "--return-callable"
  | .dot => "--dot"
  | .full => "--full"

def takesValue : Switch → Bool
  | .config | .override => true
  | _ => false

def ofText? (text : String) : Option Switch := all.find? fun s => s.text = text

end Switch

/-- The words that a task takes. -/
structure Form where
  options : List Switch
  /-- Whether arguments follow the names of the file and the function. -/
  hasArguments : Bool
  deriving DecidableEq, Repr

/-- The form of a task with the options that every task has and `own` ones. -/
def form (own : List Switch) (hasArguments : Bool) : Form :=
  { options := [.config, .debug] ++ own, hasArguments }

/-- The tasks by name. -/
def tasks : List (String × Form) :=
  [("run", form [.override, .returnCallable] true), ("check", form [] false),
    ("graph", form [.dot] false), ("explain", form [.override] false),
    ("hash", form [.full] false)]

inductive Problem where
  | noTask
  | unknownTask (name : String)
  | unknownOption (word : String)
  | noValue (s : Switch)
  | unwantedValue (s : Switch)
  | repeated (s : Switch)
  | missing (what : String)
  | unwanted (word : String)
  deriving DecidableEq, Repr

def Problem.message : Problem → String
  | .noTask => "a command is required"
  | .unknownTask name => "unrecognized command '" ++ name ++ "'"
  | .unknownOption word => "unexpected option '" ++ word ++ "'"
  | .noValue s => "a value is required for '" ++ s.text ++ "'"
  | .unwantedValue s => "no value is taken by '" ++ s.text ++ "'"
  | .repeated s => "'" ++ s.text ++ "' cannot be used multiple times"
  | .missing what => "required argument " ++ what ++ " was not provided"
  | .unwanted word => "unexpected argument '" ++ word ++ "'"

/-- The options given, and the names and arguments. -/
structure Words where
  options : List (Switch × String) := []
  plain : List String := []
  deriving Inhabited

namespace Words

def has (w : Words) (s : Switch) : Bool := w.options.any fun o => o.1 = s

/-- The values of an option in the order given. -/
def values (w : Words) (s : Switch) : List String :=
  w.options.filterMap fun o => if o.1 = s then some o.2 else none

/-- Puts an option in front. Only overrides can be given more than once, and a file needs a name. -/
def add (s : Switch) (value : String) (w : Words) : Except Problem Words :=
  if s ≠ .override ∧ w.has s then .error (.repeated s)
  else if s = .config ∧ value = "" then .error (.noValue s)
  else .ok { w with options := (s, value) :: w.options }

/-- Puts a name or an argument in front. -/
def addPlain (word : String) (w : Words) : Words := { w with plain := word :: w.plain }

end Words

/-- An option with the value that follows an equals sign, if there is one. -/
def cutOption (word : String) : String × Option String :=
  match cutAtChar? '=' word.toList with
  | some (name, value) => (String.ofList name, some (String.ofList value))
  | none => (word, none)

/-- An option among the words. -/
inductive OptionWord where
  | complete (s : Switch) (value : String)
  /-- The next word is its value. -/
  | open_ (s : Switch)
  deriving DecidableEq, Repr

/-- Reads a word as one of the options that are allowed. -/
def readOption (allowed : List Switch) (word : String) : Except Problem OptionWord :=
  let (name, value) := cutOption word
  match Switch.ofText? name, value with
  | none, _ => .error (.unknownOption word)
  | some s, value =>
    if !allowed.contains s then .error (.unknownOption word)
    else
      match s.takesValue, value with
      | true, some v => .ok (.complete s v)
      | true, none => .ok (.open_ s)
      | false, some _ => .error (.unwantedValue s)
      | false, none => .ok (.complete s "")

/-- Whether a word has the form of an option. -/
def isOption (word : String) : Bool := word.startsWith "-" && word ≠ "-"

/-- Where among the words of a command a word stands. -/
inductive Place where
  | names
  | firstArgument
  | moreArguments
  deriving DecidableEq, Repr

/-- The place of the word that follows `given` names and arguments. -/
def Form.place (f : Form) (given : Nat) : Place :=
  if !f.hasArguments || given < 2 then .names
  else if given = 2 then .firstArgument
  else .moreArguments

/-- What a word is for. -/
inductive Reading where
  /-- A name or an argument. -/
  | plain
  /-- The end of the options. -/
  | separator
  | option (o : OptionWord)
  deriving DecidableEq, Repr

/-- Tells what a word is for from its look and its place. -/
def readWord (allowed : List Switch) (place : Place) (word : String) : Except Problem Reading :=
  if place = .moreArguments then .ok .plain
  else if word = "--" then .ok .separator
  else if isOption word then
    match readOption allowed word with
    | .ok o => .ok (.option o)
    | .error (.unknownOption word) =>
      if place = .firstArgument then .ok .plain else .error (.unknownOption word)
    | .error p => .error p
  else .ok .plain

/-- Sorts words that follow `given` names and arguments. A word that is no name or argument where
it stands is not the value of an option either. -/
def sortWords (f : Form) (given : Nat) : List String → Except Problem Words
  | [] => .ok {}
  | word :: rest =>
    match readWord f.options (f.place given) word with
    | .error p => .error p
    | .ok .plain => do return (← sortWords f (given + 1) rest).addPlain word
    | .ok .separator => .ok { plain := rest }
    | .ok (.option (.complete s v)) => do (← sortWords f given rest).add s v
    | .ok (.option (.open_ s)) =>
      match rest with
      | [] => .error (.noValue s)
      | v :: rest =>
        match readWord f.options (f.place given) v with
        | .ok .plain => do (← sortWords f given rest).add s v
        | _ => .error (.noValue s)

/-- The task of a name with the words that follow it. -/
def taskOf (name : String) (w : Words) : Except Problem Task :=
  match name, w.plain with
  | _, [] => .error (.missing "INPUT")
  | "check", [_] => .ok .check
  | "hash", [_] => .ok (.hash (w.has .full))
  | "check", _ :: word :: _ | "hash", _ :: word :: _ => .error (.unwanted word)
  | _, [_] => .error (.missing "FUNCTION")
  | "run", _ :: f :: args => .ok (.run f args (w.values .override) (w.has .returnCallable))
  | "graph", [_, f] => .ok (.graph f (w.has .dot))
  | "explain", [_, f] => .ok (.explain f (w.values .override))
  | _, _ :: _ :: word :: _ => .error (.unwanted word)
  | name, _ => .error (.unknownTask name)

/-- Reads a command line. -/
def parse : List String → Except Problem Command
  | [] => .error .noTask
  | name :: words =>
    match tasks.lookup name with
    | none => .error (.unknownTask name)
    | some f => do
      let w ← sortWords f 0 words
      let task ← taskOf name w
      let input := w.plain.headD ""
      if input = "" then .error (.missing "INPUT")
      else return { input, config := (w.values .config).head?, debug := w.has .debug, task }

end Command

end Graft
