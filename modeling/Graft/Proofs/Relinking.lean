import Graft.Proofs.Callees

/-!
# Lowering with settled links

What a function is lowered to depends on the artifacts around it only through what the names that it
calls are linked to in the end. Lowered again with these links, from whatever state, it becomes the
same code. So the code can be compared with the tree as if every name had been linked beforehand.
-/

namespace Graft

open Compile (Target Grows Links)

variable {α β : Type}

/-- The context of a function whose names have their links. -/
def Compile.Context.settled (env : Linker) (f : Function) (link : String → Target) :
    Compile.Context where
  layout := Compile.layout f.definition
  capture? name := Dictionary.get? name f.captures
  global? := env.lookup f.home
  link name _ := pure (link name)

/-- If every name is linked in the end as `link` says, the second step gives what the first one gives,
wherever it is started, and leaves the artifacts as they are. -/
def Lower.Settles (env : Linker) (active : List (Nat × String)) (home : NamespaceId)
    (link : String → Target) (m m' : Lower α) : Prop :=
  ∀ callees st a callees' st', m callees st = .ok ((a, callees'), st') →
    Grows env active st st' ∧ ((∀ name t, Links env st' home name t → t = link name) →
      ∀ noted s, ∃ noted', m' noted s = .ok ((a, noted'), s))

namespace Lower.Settles

variable {env : Linker} {active : List (Nat × String)} {home : NamespaceId}
  {link : String → Target}

theorem pure (a : α) : Settles env active home link (pure a) (pure a) := by
  intro callees st b callees' st' h
  cases h
  exact ⟨.refl st, fun _ noted s => ⟨noted, rfl⟩⟩

theorem ofOutcome (o : Outcome α) :
    Settles env active home link (Compile.ofOutcome o) (Compile.ofOutcome o) := by
  cases o with
  | ok a => exact pure a
  | error d => exact fun callees st a callees' st' h => nomatch h

/-- The first step links what the second one leaves linked. -/
theorem bind {m m' : Lower α} {f f' : α → Lower β} (h : Settles env active home link m m')
    (k : ∀ a, Settles env active home link (f a) (f' a)) :
    Settles env active home link (m >>= f) (m' >>= f') := by
  intro callees st b callees' st' hok
  rw [bind_apply] at hok
  rcases hm : m callees st with e | ⟨⟨a, callees₁⟩, st₁⟩
  · rw [hm] at hok
    cases hok
  · rw [hm] at hok
    obtain ⟨hgrows, hfirst⟩ := h callees st a callees₁ st₁ hm
    obtain ⟨hgrows', hrest⟩ := k a callees₁ st₁ b callees' st' hok
    refine ⟨hgrows.trans hgrows', fun hlinks noted s => ?_⟩
    obtain ⟨noted₁, hm'⟩ := hfirst (fun name t ht => hlinks name t (ht.mono hgrows')) noted s
    obtain ⟨noted₂, hf'⟩ := hrest hlinks noted₁ s
    exact ⟨noted₂, by rw [bind_apply, hm']; exact hf'⟩

variable {callee : Function → Compile Artifact} {f : Function}

/-- A call of a bare name is linked as the name is. -/
theorem target
    (hlink : ∀ name span, Compile.Extends env active (Compile.linkName env callee f name span)
      fun st t => Links env st f.home name t) (p : Path) (span : Span) :
    Settles env active f.home link (Compile.target (.ofFunction env callee f) p span)
      (Compile.target (.settled env f link) p span) := by
  rw [Compile.target, Compile.target]
  cases p.single? with
  | none => exact (ofOutcome _).bind fun n => pure _
  | some name =>
      intro callees st t callees' st' hok
      dsimp only at hok
      rw [bind_apply, lift_apply] at hok
      rcases hl : (Compile.Context.ofFunction env callee f).link name span st with e | ⟨u, st₁⟩
      · rw [hl] at hok
        cases hok
      · rw [hl] at hok
        obtain ⟨hgrows, hu⟩ := hlink name span st u st₁ hl
        cases hok
        refine ⟨hgrows, fun hlinks noted s => ?_⟩
        rw [hlinks name t hu]
        exact ⟨_, rfl⟩

end Lower.Settles

/-! ## Trees -/

section

variable {env : Linker} {active : List (Nat × String)} {callee : Function → Compile Artifact}
  {f : Function} {link : String → Target}

/-- What is shown of a part of the body and the two ways of lowering it. -/
abbrev Lower.SettlesFor (env : Linker) (active : List (Nat × String))
    (callee : Function → Compile Artifact) (f : Function) (link : String → Target)
    (lower : Compile.Context → Lower α) : Prop :=
  Lower.Settles env active f.home link (lower (.ofFunction env callee f))
    (lower (.settled env f link))

theorem Expr.lowerAll_settles {es : List Expr}
    (h : ∀ e ∈ es, Lower.SettlesFor env active callee f link fun c => e.lower c) :
    Lower.SettlesFor env active callee f link fun c => Expr.lower.lowerAll c es := by
  induction es with
  | nil => exact .pure _
  | cons e rest ih =>
      have hrest := ih fun e' he => h e' (List.mem_cons_of_mem e he)
      rw [Lower.SettlesFor, Expr.lower.lowerAll, Expr.lower.lowerAll]
      exact (h e List.mem_cons_self).bind fun code => hrest.bind fun codes => .pure _

theorem Block.lowerAll_settles {ss : List Stmt}
    (h : ∀ x ∈ ss, Lower.SettlesFor env active callee f link fun c => x.lower c) :
    Lower.SettlesFor env active callee f link fun c => Block.lowerAll c ss := by
  induction ss with
  | nil => exact .pure _
  | cons x rest ih =>
      have hrest := ih fun y hy => h y (List.mem_cons_of_mem x hy)
      rw [Lower.SettlesFor, Block.lowerAll, Block.lowerAll]
      exact (h x List.mem_cons_self).bind fun step => hrest.bind fun steps => .pure _

variable (hlink : ∀ name span,
  Compile.Extends env active (Compile.linkName env callee f name span)
    fun st t => Links env st f.home name t)

include hlink

theorem Expr.lower_settles (e : Expr) :
    Lower.SettlesFor env active callee f link fun c => e.lower c := by
  induction e with
  | num x span => exact .pure _
  | bool b span => exact .pure _
  | var n span => exact .ofOutcome (Compile.variable_ (.settled env f link) n span)
  | path p span =>
      rw [Lower.SettlesFor, Expr.lower, Expr.lower]
      exact (Lower.Settles.ofOutcome _).bind fun v => .pure _
  | binary op l r span ihl ihr =>
      rw [Lower.SettlesFor, Expr.lower, Expr.lower]
      refine ihl.bind fun left => ihr.bind fun right => ?_
      cases op <;> exact .pure _
  | unary op x span ih =>
      rw [Lower.SettlesFor, Expr.lower, Expr.lower]
      exact ih.bind fun code => .pure _
  | call p calleeSpan args span ih =>
      rw [Lower.SettlesFor, Expr.lower, Expr.lower]
      refine (Lower.Settles.target hlink p calleeSpan).bind fun t => ?_
      refine (lowerAll_settles ih).bind fun codes => ?_
      cases t <;> exact .pure _
  | index x i span ihx ihi =>
      rw [Lower.SettlesFor, Expr.lower, Expr.lower]
      exact ihx.bind fun base => ihi.bind fun at_ => .pure _
  | slice x a b span ihx iha ihb =>
      rw [Lower.SettlesFor, Expr.lower, Expr.lower]
      exact ihx.bind fun base => iha.bind fun first => ihb.bind fun last => .pure _
  | array es span ih =>
      rw [Lower.SettlesFor, Expr.lower, Expr.lower]
      exact (lowerAll_settles ih).bind fun codes => .pure _
  | tuple es span ih =>
      rw [Lower.SettlesFor, Expr.lower, Expr.lower]
      exact (lowerAll_settles ih).bind fun codes => .pure _

theorem Place.lower_settles (p : Place) :
    Lower.SettlesFor env active callee f link fun c => p.lower c := by
  cases p with
  | var n span => exact .pure _
  | discard span => exact .pure _
  | index base i span => exact (i.lower_settles hlink).bind fun code => .pure _

theorem Place.lowerPlaces_settles (ps : List Place) :
    Lower.SettlesFor env active callee f link fun c => Compile.lowerPlaces c ps := by
  induction ps with
  | nil => exact .pure _
  | cons p rest ih =>
      rw [Lower.SettlesFor, Compile.lowerPlaces, Compile.lowerPlaces]
      exact (p.lower_settles hlink).bind fun store => ih.bind fun stores => .pure _

theorem Expr.lowerOption_settles (e : Option Expr) :
    Lower.SettlesFor env active callee f link fun c => Compile.lowerOption c e := by
  cases e with
  | none => exact .pure _
  | some e => exact (e.lower_settles hlink).bind fun code => .pure _

/-- A body becomes the same code when it is lowered with the links that its names have in the end. -/
theorem Block.lower_settles (b : Block) :
    Lower.SettlesFor env active callee f link fun c => b.lower c := by
  have lower : ∀ e : Expr, Lower.SettlesFor env active callee f link fun c => e.lower c :=
    fun e => e.lower_settles hlink
  refine Block.induction (fun x => Lower.SettlesFor env active callee f link fun c => x.lower c)
    (fun b => Lower.SettlesFor env active callee f link fun c => b.lower c)
    ?bind ?assign ?assignTuple ?branch ?branchElse ?forRange ?whileLoop ?eval ?give ?mk b
  case bind =>
    intro t e span
    cases t with
    | name n => exact (lower e).bind fun code => .pure _
    | names ns => exact (lower e).bind fun code => .pure _
  case assign =>
    intro p e span
    exact (lower e).bind fun value => (p.lower_settles hlink).bind fun store => .pure _
  case assignTuple =>
    intro ps e span
    exact (lower e).bind fun value =>
      (Place.lowerPlaces_settles hlink ps).bind fun stores => .pure _
  case branch =>
    intro e yes span ihy
    exact (lower e).bind fun condition => ihy.bind fun steps => .pure _
  case branchElse =>
    intro e yes no span ihy ihn
    exact (lower e).bind fun condition => ihy.bind fun steps => ihn.bind fun steps' => .pure _
  case forRange =>
    intro v a b body span ih
    exact (lower a).bind fun first => (lower b).bind fun last => ih.bind fun steps => .pure _
  case whileLoop =>
    intro e body span ih
    exact (lower e).bind fun condition => ih.bind fun steps => .pure _
  case eval =>
    intro e span
    exact (lower e).bind fun code => .pure _
  case give =>
    intro v span
    exact (Expr.lowerOption_settles hlink v).bind fun code => .pure _
  case mk =>
    intro ss tail span ih
    rw [Lower.SettlesFor, Block.lower, Block.lower]
    exact (lowerAll_settles ih).bind fun steps =>
      (Expr.lowerOption_settles hlink tail).bind fun code => .pure _

end

/-! ## Artifacts and their links -/

/-- What code of the function, its names linked, reads and calls. -/
def Function.linkedScope (f : Function) (env : Linker) (link : String → Target) (fuel : Nat) :
    Scope Unit where
  outer name span := Run.ofExcept ((Compile.Context.settled env f link).outerValue name span)
  call p args span :=
    match p.single? with
    | some name => Run.ofExcept ((link name).run fuel args)
    | none => do
      let n ← Run.ofOutcome (Calls.member? p span)
      Run.ofOutcome (n.call args)

theorem Compile.Context.settled_fits (env : Linker) (f : Function) (link : String → Target)
    (fuel : Nat) (stored : List String) :
    (settled env f link).Fits (fun _ => f.linkedScope env link fuel) Fault.Alike () fuel
      (fun _ => True) .all stored := by
  apply fits_of_links
  · intro d name span _ _
    exact .ofExcept _
  · intro d name span span' _
    exact yields_outerValue (.ofExcept _) span'
  · intro name span _
    exact .pure (.of_forall fun d args => .ofExcept _)
  · intro d p args span hp
    simp only [Function.linkedScope, hp]

namespace Artifact

/-- The artifact was compiled from the function, its names being linked in the end as `link` says. -/
def CompiledFrom (a : Artifact) (env : Linker) (f : Function) (link : String → Target) : Prop :=
  ∃ fuel active st st',
    Compile.compileUnit env (Compile.function env fuel active) f st = .ok (a, st') ∧
      ∀ name t, Links env st' f.home name t → t = link name

/-- What an artifact of the function is, and what it does. -/
structure Embodies (a : Artifact) (env : Linker) (f : Function) (link : String → Target) : Prop where
  definition : a.info.definition = f.definition
  fingerprint : a.fingerprint = .ofArtifact f.fingerprint a.callees
  distinct : (Dictionary.keys a.callees).Nodup
  names : ∀ n, n ∈ Dictionary.keys a.callees ↔ n ∈ f.definition.body.calledNames
  told : ∀ n d, (n, d) ∈ a.callees → d = (link n).fingerprint
  runs : ∀ fuel args, args.length = f.arity →
    Run.Yields Fault.Alike () (f.definition.value (f.linkedScope env link fuel) fuel args)
      (a.call fuel args)

variable {a : Artifact} {env : Linker} {f : Function} {link : String → Target}

theorem CompiledFrom.embodies (h : a.CompiledFrom env f link) : a.Embodies env f link := by
  obtain ⟨n, active, st, st', hunit, hlinks⟩ := h
  have hextends := @Compile.function_extends env n active
  have hsettles : Lower.SettlesFor env active (Compile.function env n active) f link fun c =>
      f.definition.body.lower c :=
    f.definition.body.lower_settles (Compile.linkName_extends hextends)
  obtain ⟨-, hcallees⟩ := Compile.compileUnit_extends hextends st a st' hunit
  obtain ⟨-, steps, callees, st₁, hl, rfl, rfl⟩ := Compile.compileUnit_eq_ok hunit
  -- lowered again with its links, the body becomes the same code
  obtain ⟨noted, hagain⟩ := (hsettles [] st steps callees st₁ hl).2
    (fun name t ht => hlinks name t (ht.mono (@Grows.renumber env active st₁ _))) [] st
  refine ⟨rfl, rfl, hcallees.recorded.distinct, hcallees.names, ?_, ?_⟩
  · intro n d hd
    obtain ⟨t, ht, rfl⟩ := hcallees.recorded.told hd
    rw [hlinks n t ht]
  · intro fuel args hargs
    have hsimulates := f.definition.body.lower_simulates
      (Compile.Context.settled_fits env f link fuel f.definition.body.stored)
      (Definition.body_admitted rfl (Names.within_all _))
    obtain ⟨-, hrun⟩ := hsimulates [] st steps noted st hagain trivial
    obtain ⟨d, hd⟩ := hrun.exists
    exact Definition.value_yields hd.2 rfl hargs

end Artifact

end Graft
