import Graft.Digest.Basic
import Graft.Native.Basic

/-!
# Artifacts

An artifact is a function compiled: local names have become slots, and every outer value, primitive
and callee that it uses is part of it. Code has the shape of the tree that it was compiled from, and
each piece of it keeps the span of its expression for reports.
-/

namespace Graft

/-- What is known of an artifact from outside. -/
structure ArtifactInfo where
  id : Nat
  /-- The definition that it was compiled from. -/
  definition : Definition
  /-- The names that it calls, each with the fingerprint of what it was linked to, in the order in
  which compilation came to them. -/
  callees : List (String × Digest)
  fingerprint : Digest
  deriving Inhabited

mutual

inductive Code where
  | constant (v : Value) (span : Span)
  /-- A local name: its slot, and the outer value that it has before it is assigned. -/
  | slot (n : Nat) (name : String) (outer : Option Value) (span : Span)
  /-- Both operands, or, if `either`, at least one of them. -/
  | logical (either : Bool) (left right : Code) (span : Span)
  | binary (op : BinaryOp) (left right : Code) (span : Span)
  | unary (op : UnaryOp) (operand : Code) (span : Span)
  | native (n : Native) (args : List Code) (span : Span)
  | linked (callee : Artifact) (args : List Code) (span : Span)
  | index (base at_ : Code) (span : Span)
  | slice (base from_ to_ : Code) (span : Span)
  | array (elements : List Code) (span : Span)
  | tuple (elements : List Code) (span : Span)

inductive Store where
  | slot (n : Nat)
  | discard
  /-- An element of the array in a slot, or of the outer one of that name. -/
  | element (n : Nat) (name : String) (outer : Option Value) (at_ : Code) (span : Span)

inductive Step where
  | bind (slot : Nat) (init : Code)
  | bindAll (slots : List Nat) (init : Code) (span : Span)
  | assign (place : Store) (value : Code)
  | assignAll (places : List Store) (value : Code) (span : Span)
  | branch (condition : Code) (yes : Steps) (no : Option Steps)
  | forRange (slot : Nat) (first last : Code) (body : Steps)
  | whileLoop (condition : Code) (body : Steps)
  | eval (e : Code)
  | give (value : Option Code)

/-- Steps, and the code of the last expression. -/
inductive Steps where
  | mk (steps : List Step) (tail : Option Code)

inductive Artifact where
  | mk (info : ArtifactInfo) (slotCount : Nat) (body : Steps)

end

namespace Code

def span : Code → Span
  | constant _ s | slot _ _ _ s | logical _ _ _ s | binary _ _ _ s | unary _ _ s | native _ _ s
  | linked _ _ s | index _ _ s | slice _ _ _ s | array _ s | tuple _ s => s

end Code

namespace Artifact

def info : Artifact → ArtifactInfo
  | mk i _ _ => i

def slotCount : Artifact → Nat
  | mk _ n _ => n

def body : Artifact → Steps
  | mk _ _ b => b

def id (a : Artifact) : Nat := a.info.id

def name (a : Artifact) : String := a.info.definition.name.text

/-- How many arguments it takes. -/
def arity (a : Artifact) : Nat := a.info.definition.params.length

def fingerprint (a : Artifact) : Digest := a.info.fingerprint

def callees (a : Artifact) : List (String × Digest) := a.info.callees

/-- How the artifact is shown. -/
def display (a : Artifact) : String :=
  "<compiled " ++ a.name ++ " " ++ a.fingerprint.display ++ ">"

end Artifact

instance : Inhabited Steps := ⟨.mk [] none⟩

instance : Inhabited Artifact := ⟨.mk default 0 default⟩

end Graft
