import Graft.Proofs.Emitting
import Graft.Proofs.Renumbering
import Graft.Proofs.Replacements
import Mathlib.Data.List.Forall2

/-!
# The callees of an artifact

What an artifact says of its callees is all that its code calls by bare names. A name is linked to the
same target wherever the function calls it: compilation keeps what it made for a function, and it
makes nothing for it again. So the fingerprint that is recorded at the first call of a name is that
of the target of every call.
-/

namespace Graft

open Compile (Target)

/-! ## What code calls -/

mutual

/-- The targets of the calls in code, in the order of `Block.callSites`. -/
def Code.targets : Code → List Target
  | .constant _ _ | .slot _ _ _ _ => []
  | .logical _ l r _ | .binary _ l r _ => Code.targets l ++ Code.targets r
  | .unary _ x _ => Code.targets x
  | .native n args _ => Code.targetsAll args ++ [.native n]
  | .linked a args _ => Code.targetsAll args ++ [.artifact a]
  | .index x i _ => Code.targets x ++ Code.targets i
  | .slice x a b _ => Code.targets x ++ Code.targets a ++ Code.targets b
  | .array codes _ | .tuple codes _ => Code.targetsAll codes
  termination_by structural c => c

def Code.targetsAll : List Code → List Target
  | [] => []
  | c :: cs => Code.targets c ++ Code.targetsAll cs
  termination_by structural cs => cs

end

def Store.targets : Store → List Target
  | .element _ _ _ i _ => i.targets
  | _ => []

mutual

def Step.targets : Step → List Target
  | .bind _ x | .bindAll _ x _ => x.targets
  | .assign p x => p.targets ++ x.targets
  | .assignAll ps x _ => ps.flatMap Store.targets ++ x.targets
  | .branch c yes none => c.targets ++ Steps.targets yes
  | .branch c yes (some no) => c.targets ++ Steps.targets yes ++ Steps.targets no
  | .forRange _ a b body => a.targets ++ b.targets ++ Steps.targets body
  | .whileLoop c body => c.targets ++ Steps.targets body
  | .eval x => x.targets
  | .give (some x) => x.targets
  | .give none => []
  termination_by structural s => s

def Steps.targets : Steps → List Target
  | .mk ss none => Steps.targetsAll ss
  | .mk ss (some x) => Steps.targetsAll ss ++ x.targets
  termination_by structural b => b

def Steps.targetsAll : List Step → List Target
  | [] => []
  | s :: ss => Step.targets s ++ Steps.targetsAll ss
  termination_by structural ss => ss

end

/-- The call that the expression itself is, its parts apart. -/
def Expr.site? : Expr → Option CallSite
  | .call callee span _ _ => some ⟨callee, span⟩
  | _ => none

/-- The calls that are among the expressions. -/
def sitesIn (es : List Expr) : List CallSite := es.filterMap Expr.site?

theorem Block.callSites_eq (b : Block) : b.callSites = sitesIn b.subterms :=
  congrArg (List.filterMap · b.subterms) (funext fun e => by cases e <;> rfl)

theorem sitesIn_part {e : Expr} (h : e.site? = none) (es : List Expr) :
    sitesIn (es ++ [e]) = sitesIn es := by
  rw [sitesIn, List.filterMap_append, List.filterMap_cons, h]
  exact List.append_nil _

@[simp] theorem sitesIn_append (es fs : List Expr) :
    sitesIn (es ++ fs) = sitesIn es ++ sitesIn fs := List.filterMap_append

/-! ## What a name is linked to -/

namespace Compile

namespace State

/-- The artifact that is kept for the function of a number. -/
def kept? (st : State) (id : Nat) : Option Artifact :=
  (st.done.find? fun entry => entry.1 = id).map Prod.snd

theorem kept?_cons {st : State} {i id : Nat} {a : Artifact} :
    ({ st with done := (i, a) :: st.done } : State).kept? id =
      if i = id then some a else st.kept? id := by
  by_cases h : i = id <;> simp [kept?, h]

end State

/-- The artifact was compiled for a function of the number. -/
def MadeFor (env : Linker) (id : Nat) (a : Artifact) : Prop :=
  ∃ g fuel active st st', g.id = id ∧
    compileUnit env (function env fuel active) g st = .ok (a, st')

/-- What is kept stays so, and what is new was compiled. Nothing is made for the functions that are
waiting. -/
structure Grows (env : Linker) (active : List (Nat × String)) (st st' : State) : Prop where
  stays : ∀ {id a}, st.kept? id = some a → st'.kept? id = some a
  made : ∀ {id a}, st'.kept? id = some a → st.kept? id = some a ∨ MadeFor env id a
  waiting : ∀ entry ∈ active, st.kept? entry.1 = none → st'.kept? entry.1 = none

variable {env : Linker} {active : List (Nat × String)} {st st' st'' : State}

theorem Grows.refl (st : State) : Grows env active st st := ⟨id, .inl, fun _ _ => id⟩

theorem Grows.trans (h : Grows env active st st') (h' : Grows env active st' st'') :
    Grows env active st st'' :=
  ⟨fun ha => h'.stays (h.stays ha), fun ha => (h'.made ha).elim h.made .inr,
    fun entry he hnone => h'.waiting entry he (h.waiting entry he hnone)⟩

/-- Numbers of artifacts do not count. -/
theorem Grows.renumber (st : State) (n : Nat) : Grows env active st { st with nextId := n } :=
  ⟨id, .inl, fun _ _ => id⟩

/-- What a bare name that is called in the namespace is linked to, as things are. -/
inductive Links (env : Linker) (st : State) (home : NamespaceId) (name : String) : Target → Prop
  | native {n : Native} : env.lookup home name = some (.callable (.native n)) →
      Links env st home name (.native n)
  | artifact {a : Artifact} : env.lookup home name = some (.callable (.artifact a)) →
      Links env st home name (.artifact a)
  | compiled {c : Callable} {g : Function} {a : Artifact} :
      env.lookup home name = some (.callable c) → c.plain? = some g → st.kept? g.id = some a →
      Links env st home name (.artifact a)
  | builtin {n : Native} : env.lookup home name = none → Native.builtin? name = some n →
      Links env st home name (.native n)

variable {home : NamespaceId} {name : String} {t t' : Target}

theorem Links.mono (h : Links env st home name t) (hgrows : Grows env active st st') :
    Links env st' home name t := by
  cases h with
  | native hl => exact .native hl
  | artifact hl => exact .artifact hl
  | compiled hl hg ha => exact .compiled hl hg (hgrows.stays ha)
  | builtin hl hn => exact .builtin hl hn

/-- A name is linked to one target. -/
theorem Links.unique (h : Links env st home name t) (h' : Links env st home name t') : t = t' := by
  cases h with
  | native hl =>
      cases h' with
      | native hl' | compiled hl' hg => simp_all [Callable.plain?]
      | artifact hl' | builtin hl' => simp [hl] at hl'
  | artifact hl =>
      cases h' with
      | artifact hl' | compiled hl' hg => simp_all [Callable.plain?]
      | native hl' | builtin hl' => simp [hl] at hl'
  | compiled hl hg ha =>
      cases h' with
      | compiled hl' hg' ha' =>
          rw [hl] at hl'
          cases hl'
          rw [hg] at hg'
          cases hg'
          rw [ha] at ha'
          cases ha'
          rfl
      | native hl' | artifact hl' =>
          rw [hl] at hl'
          cases hl'
          cases hg
      | builtin hl' => simp [hl] at hl'
  | builtin hl hn =>
      cases h' with
      | builtin hl' hn' =>
          rw [hn] at hn'
          cases hn'
          rfl
      | native hl' | artifact hl' | compiled hl' => simp [hl] at hl'

/-- A call is linked to the target if it is one of a bare name and the name is. -/
def Linked (env : Linker) (st : State) (home : NamespaceId) (site : CallSite) (t : Target) : Prop :=
  ∀ n, site.callee.single? = some n → Links env st home n t

/-- What is recorded tells of each name what it is linked to, and no name twice. -/
structure Recorded (env : Linker) (st : State) (home : NamespaceId)
    (callees : List (String × Digest)) : Prop where
  distinct : (Dictionary.keys callees).Nodup
  told : ∀ {n d}, (n, d) ∈ callees → ∃ t, Links env st home n t ∧ t.fingerprint = d

theorem Recorded.mono {callees : List (String × Digest)} (h : Recorded env st home callees)
    (hgrows : Grows env active st st') : Recorded env st' home callees :=
  ⟨h.distinct, fun hmem => (h.told hmem).imp fun _ ht => ht.imp_left (·.mono hgrows)⟩

theorem Recorded.empty : Recorded env st home [] :=
  ⟨.nil, fun hmem => absurd hmem List.not_mem_nil⟩

/-- A name that is linked is recorded unless it was. -/
theorem Recorded.record {callees : List (String × Digest)} (h : Recorded env st home callees)
    (ht : Links env st home name t) :
    ∃ callees', Compile.record name t.fingerprint callees st = .ok (((), callees'), st) ∧
      Recorded env st home callees' ∧
      ∀ n, n ∈ Dictionary.keys callees' ↔ n ∈ Dictionary.keys callees ∨ n = name := by
  refine ⟨_, rfl, ?_⟩
  dsimp only
  by_cases hmem : name ∈ Dictionary.keys callees
  · have hcontains : Dictionary.contains name callees = true := by
      rw [Dictionary.contains, Option.isSome_iff_ne_none]
      exact mt Dictionary.get?_eq_none_iff.mp (not_not_intro hmem)
    rw [if_pos hcontains]
    exact ⟨h, fun n => ⟨.inl, fun hn => hn.elim id fun hn => hn ▸ hmem⟩⟩
  · have hcontains : ¬ Dictionary.contains name callees = true := by
      rw [Dictionary.contains, Dictionary.get?_eq_none_iff.mpr hmem]
      exact Bool.false_ne_true
    rw [if_neg hcontains]
    refine ⟨⟨?_, fun hn => ?_⟩, fun n => by simp [Dictionary.keys]⟩
    · rw [Dictionary.keys, List.map_append, List.nodup_append]
      refine ⟨h.distinct, List.pairwise_singleton _ _, fun n hn m hm hnm => hmem ?_⟩
      obtain rfl : m = name := List.mem_singleton.mp hm
      exact hnm ▸ hn
    · rcases List.mem_append.mp hn with hn | hn
      · exact h.told hn
      · cases List.mem_singleton.mp hn
        exact ⟨t, ht, rfl⟩

variable {α β : Type}

/-- A step that succeeds goes on from what is kept and comes to `post`. -/
def Extends (env : Linker) (active : List (Nat × String)) (m : Compile α)
    (post : State → α → Prop) : Prop :=
  ∀ st a st', m st = .ok (a, st') → Grows env active st st' ∧ post st' a

end Compile

open Compile (Recorded Grows Links Linked)

/-- A step of lowering that succeeds goes on from what is kept and comes to `post`; it records the
names that are called in `sites`, and nothing else. -/
def Lower.Notes {α : Type} (env : Linker) (active : List (Nat × String)) (home : NamespaceId)
    (m : Lower α) (sites : List CallSite) (post : Compile.State → α → Prop) : Prop :=
  ∀ callees st a callees' st', m callees st = .ok ((a, callees'), st') →
    Recorded env st home callees →
    Grows env active st st' ∧ Recorded env st' home callees' ∧
      (∀ n, n ∈ Dictionary.keys callees' ↔
        n ∈ Dictionary.keys callees ∨ ∃ site ∈ sites, site.callee.single? = some n) ∧
      post st' a

/-- The calls in `sites` are linked to the targets in the result, one after the other. -/
abbrev Lower.LinksAll {α : Type} (env : Linker) (active : List (Nat × String)) (home : NamespaceId)
    (m : Lower α) (sites : List CallSite) (targets : α → List Target) : Prop :=
  Notes env active home m sites fun st a => List.Forall₂ (Linked env st home) sites (targets a)

namespace Lower.Notes

variable {env : Linker} {active : List (Nat × String)} {home : NamespaceId} {α β : Type}
  {m : Lower α} {sites sites' : List CallSite} {post : Compile.State → β → Prop}

theorem pure {b : β} (h : ∀ st, post st b) : Notes env active home (pure b) [] post := by
  intro callees st a callees' st' hok hrec
  cases hok
  exact ⟨.refl st, hrec, fun n => by simp, h st⟩

theorem congr {m : Lower β} (h : Notes env active home m sites post)
    (hsites : ∀ n, (∃ site ∈ sites, site.callee.single? = some n) ↔
      ∃ site ∈ sites', site.callee.single? = some n) : Notes env active home m sites' post := by
  intro callees st a callees' st' hok hrec
  obtain ⟨hgrows, hrec', hkeys, hpost⟩ := h callees st a callees' st' hok hrec
  exact ⟨hgrows, hrec', fun n => by rw [hkeys, hsites], hpost⟩

/-- What the first step linked stays linked while the second one goes on. -/
theorem bind {f : α → Lower β} {targets : α → List Target}
    (h : LinksAll env active home m sites targets)
    (k : ∀ a, Notes env active home (f a) sites' fun st b =>
      List.Forall₂ (Linked env st home) sites (targets a) → post st b) :
    Notes env active home (m >>= f) (sites ++ sites') post := by
  intro callees st b callees' st' hok hrec
  rw [bind_apply] at hok
  rcases hm : m callees st with e | ⟨⟨a, callees₁⟩, st₁⟩
  · rw [hm] at hok
    cases hok
  · rw [hm] at hok
    obtain ⟨hgrows, hrec₁, hkeys, hlinked⟩ := h callees st a callees₁ st₁ hm hrec
    obtain ⟨hgrows', hrec', hkeys', hpost⟩ := k a callees₁ st₁ b callees' st' hok hrec₁
    refine ⟨hgrows.trans hgrows', hrec', fun n => ?_, hpost (hlinked.imp fun _ _ hl n hn =>
      (hl n hn).mono hgrows')⟩
    rw [hkeys', hkeys, or_assoc]
    simp only [List.mem_append, or_and_right, exists_or]

/-- The last step, whose result is put into another one. -/
theorem map {f : α → β} {targets : α → List Target}
    (h : LinksAll env active home m sites targets)
    (hpost : ∀ a st, List.Forall₂ (Linked env st home) sites (targets a) → post st (f a)) :
    Notes env active home (m >>= fun a => Pure.pure (f a)) sites post := by
  have hbind : Notes env active home (m >>= fun a => Pure.pure (f a)) (sites ++ []) post :=
    h.bind fun a => pure fun st => hpost a st
  rwa [List.append_nil] at hbind

theorem ofOutcome {o : Outcome β} (h : ∀ b, o = .ok b → ∀ st, post st b) :
    Notes env active home (Compile.ofOutcome o) [] post := by
  cases o with
  | ok b => exact pure (h b rfl)
  | error d => exact fun callees st a callees' st' hok => nomatch hok

/-- A bare name that is called is recorded with what it is linked to. -/
theorem target {callee : Function → Compile Artifact} {f : Function}
    (hlink : ∀ name span, Compile.Extends env active (Compile.linkName env callee f name span)
      fun st t => Links env st f.home name t) (p : Path) (span : Span) :
    LinksAll env active f.home (Compile.target (.ofFunction env callee f) p span) [⟨p, span⟩]
      fun t => [t] := by
  rw [Compile.target]
  cases hs : p.single? with
  | none =>
      have hnone : ∀ {st : Compile.State} {t}, Linked env st f.home ⟨p, span⟩ t := by
        intro st t n hn
        rw [hs] at hn
        cases hn
      have hmember : LinksAll env active f.home (Compile.ofOutcome (Calls.member? p span)) []
          fun _ => [] := ofOutcome fun _ _ _ => .nil
      refine (hmember.map fun n st _ => .cons hnone .nil).congr fun n => ?_
      simp [hs]
  | some name =>
      intro callees st t callees' st' hok hrec
      dsimp only at hok
      rw [bind_apply, lift_apply] at hok
      rcases hl : (Compile.Context.ofFunction env callee f).link name span st with e | ⟨u, st₁⟩
      · rw [hl] at hok
        cases hok
      · rw [hl] at hok
        obtain ⟨hgrows, hu⟩ := hlink name span st u st₁ hl
        obtain ⟨callees₁, hrecord, hrec', hkeys⟩ := (hrec.mono hgrows).record hu
        dsimp only at hok
        rw [bind_apply, hrecord] at hok
        cases hok
        refine ⟨hgrows, hrec', fun n => (hkeys n).trans ?_, .cons (fun n hn => ?_) .nil⟩
        · simp [hs, eq_comm]
        · rw [hs] at hn
          cases hn
          exact hu

end Lower.Notes

/-! ## Lowered trees -/

section

open Lower (LinksAll)

variable {env : Linker} {active : List (Nat × String)} {callee : Function → Compile Artifact}
  {f : Function}

/-- What is shown of an expression: its calls are linked to the targets in its code. -/
abbrev Expr.Noted (env : Linker) (active : List (Nat × String))
    (callee : Function → Compile Artifact) (f : Function) (e : Expr) : Prop :=
  LinksAll env active f.home (e.lower (.ofFunction env callee f)) (sitesIn e.subterms)
    Code.targets

theorem Expr.lowerAll_noted {es : List Expr} (h : ∀ e ∈ es, e.Noted env active callee f) :
    LinksAll env active f.home (Expr.lower.lowerAll (.ofFunction env callee f) es)
      (sitesIn (Expr.subterms.subtermsAll es)) Code.targetsAll := by
  induction es with
  | nil => exact .pure fun _ => .nil
  | cons e rest ih =>
      have hrest := ih fun e' he => h e' (List.mem_cons_of_mem e he)
      rw [Expr.lower.lowerAll, Expr.subterms.subtermsAll, sitesIn_append]
      exact (h e List.mem_cons_self).bind fun code => hrest.map fun codes st hcodes hcode =>
        List.rel_append hcode hcodes

theorem Expr.lower_noted
    (hlink : ∀ name span, Compile.Extends env active (Compile.linkName env callee f name span)
      fun st t => Links env st f.home name t) (e : Expr) : e.Noted env active callee f := by
  induction e with
  | num x span => exact .pure fun _ => .nil
  | bool b span => exact .pure fun _ => .nil
  | var n span =>
      refine .ofOutcome fun code hcode st => ?_
      have hnone : code.targets = [] := by
        rw [Compile.variable_] at hcode
        split at hcode
        · cases hcode
          rfl
        · split at hcode
          · cases hcode
            rfl
          · split at hcode <;> cases hcode
            rfl
      rw [hnone]
      exact .nil
  | path p span =>
      have hconstant : LinksAll env active f.home (Compile.ofOutcome (p.constant? span)) []
          fun _ => [] := .ofOutcome fun _ _ _ => .nil
      exact hconstant.map fun v st h => h
  | binary op l r span ihl ihr =>
      rw [Expr.Noted, Expr.lower, Expr.subterms, sitesIn_part rfl, sitesIn_append]
      refine ihl.bind fun left => ?_
      cases op <;> exact ihr.map fun right st hright hleft => List.rel_append hleft hright
  | unary op x span ih =>
      rw [Expr.Noted, Expr.lower, Expr.subterms, sitesIn_part rfl]
      exact ih.map fun code st h => h
  | call p calleeSpan args span ih =>
      have htarget := Lower.Notes.target hlink p calleeSpan
      have hargs := lowerAll_noted ih
      rw [Expr.Noted, Expr.lower, Expr.subterms, sitesIn_append]
      refine (htarget.bind fun t => by
        cases t <;> exact hargs.map fun codes st hcodes ht => List.rel_append hcodes ht).congr
          fun n => ?_
      simp [sitesIn, Expr.site?, or_comm]
  | index x i span ihx ihi =>
      rw [Expr.Noted, Expr.lower, Expr.subterms, sitesIn_part rfl, sitesIn_append]
      exact ihx.bind fun base => ihi.map fun at_ st hi hx => List.rel_append hx hi
  | slice x a b span ihx iha ihb =>
      rw [Expr.Noted, Expr.lower, Expr.subterms, sitesIn_part rfl, sitesIn_append, sitesIn_append,
        List.append_assoc]
      exact ihx.bind fun base => iha.bind fun first => ihb.map fun last st hb ha hx => by
        rw [Code.targets, List.append_assoc]
        exact List.rel_append hx (List.rel_append ha hb)
  | array es span ih =>
      rw [Expr.Noted, Expr.lower, Expr.subterms, sitesIn_part rfl]
      exact (lowerAll_noted ih).map fun codes st h => h
  | tuple es span ih =>
      rw [Expr.Noted, Expr.lower, Expr.subterms, sitesIn_part rfl]
      exact (lowerAll_noted ih).map fun codes st h => h

theorem Place.lower_noted
    (hlink : ∀ name span, Compile.Extends env active (Compile.linkName env callee f name span)
      fun st t => Links env st f.home name t) (p : Place) :
    LinksAll env active f.home (p.lower (.ofFunction env callee f)) (sitesIn p.subterms)
      Store.targets := by
  cases p with
  | index base i span => exact (Expr.lower_noted hlink i).map fun code st h => h
  | var n span | discard span => exact .pure fun _ => .nil

theorem Place.lowerPlaces_noted
    (hlink : ∀ name span, Compile.Extends env active (Compile.linkName env callee f name span)
      fun st t => Links env st f.home name t) (ps : List Place) :
    LinksAll env active f.home (Compile.lowerPlaces (.ofFunction env callee f) ps)
      (sitesIn (ps.flatMap Place.subterms)) fun stores => stores.flatMap Store.targets := by
  induction ps with
  | nil => exact .pure fun _ => .nil
  | cons p rest ih =>
      rw [Compile.lowerPlaces, List.flatMap_cons, sitesIn_append]
      exact (p.lower_noted hlink).bind fun store => ih.map fun stores st hstores hstore =>
        List.rel_append hstore hstores

/-- What is shown of a statement. -/
abbrev Stmt.Noted (env : Linker) (active : List (Nat × String))
    (callee : Function → Compile Artifact) (f : Function) (x : Stmt) : Prop :=
  LinksAll env active f.home (x.lower (.ofFunction env callee f)) (sitesIn x.subterms) Step.targets

/-- What is shown of a block. -/
abbrev Block.Noted (env : Linker) (active : List (Nat × String))
    (callee : Function → Compile Artifact) (f : Function) (b : Block) : Prop :=
  LinksAll env active f.home (b.lower (.ofFunction env callee f)) (sitesIn b.subterms) Steps.targets

theorem Block.lowerAll_noted {ss : List Stmt} (h : ∀ x ∈ ss, x.Noted env active callee f) :
    LinksAll env active f.home (Block.lowerAll (.ofFunction env callee f) ss)
      (sitesIn (Block.subtermsAll ss)) Steps.targetsAll := by
  induction ss with
  | nil => exact .pure fun _ => .nil
  | cons x rest ih =>
      have hrest := ih fun y hy => h y (List.mem_cons_of_mem x hy)
      rw [Block.lowerAll, Block.subtermsAll, sitesIn_append]
      exact (h x List.mem_cons_self).bind fun step => hrest.map fun steps st hsteps hstep =>
        List.rel_append hstep hsteps

theorem Block.lower_noted
    (hlink : ∀ name span, Compile.Extends env active (Compile.linkName env callee f name span)
      fun st t => Links env st f.home name t) (b : Block) : b.Noted env active callee f := by
  refine Block.induction (fun x => x.Noted env active callee f)
    (fun b => b.Noted env active callee f)
    ?bind ?assign ?assignTuple ?branch ?branchElse ?forRange ?whileLoop ?eval ?give ?mk b
  case bind =>
    intro t e span
    rw [Stmt.Noted]
    cases t with
    | name n => exact (e.lower_noted hlink).map fun code st h => h
    | names ns => exact (e.lower_noted hlink).map fun code st h => h
  case assign =>
    intro p e span
    -- the value is lowered first, but the calls are listed as they are written
    rw [Stmt.Noted, Stmt.lower, Stmt.subterms, sitesIn_append]
    refine ((e.lower_noted hlink).bind fun value => (p.lower_noted hlink).map
      fun store st hstore hvalue => ?_).congr fun n => ?_
    · exact List.rel_append hstore hvalue
    · simp [or_and_right, exists_or, or_comm]
  case assignTuple =>
    intro ps e span
    rw [Stmt.Noted, Stmt.lower, Stmt.subterms, sitesIn_append]
    refine ((e.lower_noted hlink).bind fun value => (Place.lowerPlaces_noted hlink ps).map
      fun stores st hstores hvalue => ?_).congr fun n => ?_
    · exact List.rel_append hstores hvalue
    · simp [or_and_right, exists_or, or_comm]
  case branch =>
    intro e yes span ihy
    rw [Stmt.Noted, Stmt.lower, Stmt.subterms, sitesIn_append]
    exact (e.lower_noted hlink).bind fun condition => ihy.map fun steps st hsteps hcond =>
      List.rel_append hcond hsteps
  case branchElse =>
    intro e yes no span ihy ihn
    rw [Stmt.Noted, Stmt.lower, Stmt.subterms, sitesIn_append, sitesIn_append, List.append_assoc]
    exact (e.lower_noted hlink).bind fun condition => ihy.bind fun steps => ihn.map
      fun steps' st hno hyes hcond => by
        rw [Step.targets, List.append_assoc]
        exact List.rel_append hcond (List.rel_append hyes hno)
  case forRange =>
    intro v a b body span ih
    rw [Stmt.Noted, Stmt.lower, Stmt.subterms, sitesIn_append, sitesIn_append, List.append_assoc]
    exact (a.lower_noted hlink).bind fun first => (b.lower_noted hlink).bind fun last => ih.map
      fun steps st hbody hlast hfirst => by
        rw [Step.targets, List.append_assoc]
        exact List.rel_append hfirst (List.rel_append hlast hbody)
  case whileLoop =>
    intro e body span ih
    rw [Stmt.Noted, Stmt.lower, Stmt.subterms, sitesIn_append]
    exact (e.lower_noted hlink).bind fun condition => ih.map fun steps st hsteps hcond =>
      List.rel_append hcond hsteps
  case eval =>
    intro e span
    exact (e.lower_noted hlink).map fun code st h => h
  case give =>
    intro v span
    cases v with
    | none => exact .pure fun _ => .nil
    | some e =>
        rw [Stmt.Noted, Stmt.lower, Compile.lowerOption, bind_assoc]
        exact (e.lower_noted hlink).map fun code st h => h
  case mk =>
    intro ss tail span ih
    have hall := lowerAll_noted ih
    rw [Block.Noted, Block.lower, Block.subterms.eq_def]
    cases tail with
    | none => exact hall.map fun steps st h => h
    | some e =>
        rw [Compile.lowerOption, sitesIn_append]
        simp only [bind_assoc]
        exact hall.bind fun steps => (e.lower_noted hlink).map fun code st hcode hsteps =>
          List.rel_append hsteps hcode

end

/-! ## Compiled functions -/

namespace Compile

variable {env : Linker} {active : List (Nat × String)} {callee : Function → Compile Artifact}
  {f g : Function} {st st' : State} {a : Artifact}

theorem linkName_extends
    (hcallee : ∀ g, Extends env active (callee g) fun st a => st.kept? g.id = some a)
    (name : String) (span : Span) :
    Extends env active (linkName env callee f name span) fun st t =>
      Links env st f.home name t := by
  intro st t st' h
  rw [linkName] at h
  rcases hl : env.lookup f.home name with _ | v | c
  · rw [hl] at h
    dsimp only at h
    cases hn : Native.builtin? name with
    | none =>
        rw [hn] at h
        cases h
    | some n =>
        rw [hn] at h
        cases h
        exact ⟨.refl st, .builtin hl hn⟩
  · rw [hl] at h
    cases h
  · have compiled : ∀ g, c.plain? = some g →
        (tryCatch (do return Target.artifact (← callee g)) fun e =>
          throw (e.map fun d => d.withNote ("while compiling `" ++ f.name ++ "`")) :
            Compile Target) st = .ok (t, st') →
        Grows env active st st' ∧ Links env st' f.home name t := by
      intro g hg hok
      rw [tryThrow_apply, bind_apply] at hok
      rcases hm : callee g st with e | ⟨a, st₁⟩
      · rw [hm] at hok
        cases hok
      · rw [hm] at hok
        cases hok
        obtain ⟨hgrows, hkept⟩ := hcallee g st a st' hm
        exact ⟨hgrows, .compiled hl hg hkept⟩
    rw [hl] at h
    cases c with
    | function g => exact compiled g rfl h
    | gateway g => exact compiled g.function rfl h
    | artifact a =>
        cases h
        exact ⟨.refl st, .artifact hl⟩
    | native n =>
        cases h
        exact ⟨.refl st, .native hl⟩
    | bound i g overrides d => cases h

/-- What an artifact of `f` says of its callees, as things are once it was compiled. -/
structure CalleesOf (env : Linker) (st : State) (f : Function) (a : Artifact) : Prop where
  recorded : Recorded env st f.home a.callees
  names : ∀ n, n ∈ Dictionary.keys a.callees ↔ n ∈ f.definition.body.calledNames
  linked : List.Forall₂ (Linked env st f.home) f.definition.body.callSites a.body.targets

theorem compileUnit_extends
    (hcallee : ∀ g, Extends env active (callee g) fun st a => st.kept? g.id = some a) :
    Extends env active (compileUnit env callee f) fun st a => CalleesOf env st f a := by
  intro st a st' h
  have hlink : ∀ name span, Extends env active (linkName env callee f name span) fun st t =>
      Links env st f.home name t := linkName_extends hcallee
  have hbody := f.definition.body.lower_noted hlink
  obtain ⟨-, steps, callees, st₁, hl, rfl, rfl⟩ := compileUnit_eq_ok h
  obtain ⟨hgrows, hrec, hkeys, hlinked⟩ := hbody [] st steps callees st₁ hl .empty
  have hsame := @Grows.renumber env active st₁ (st₁.nextId + 1)
  rw [← Block.callSites_eq] at hkeys hlinked
  refine ⟨hgrows.trans hsame, hrec.mono hsame, fun n => (hkeys n).trans ?_,
    hlinked.imp fun _ _ hl n hn => (hl n hn).mono hsame⟩
  rw [Block.calledNames, Ordered.mem_ofList, List.mem_filterMap]
  simp [Dictionary.keys]

/-- What was made for a function that nothing was kept for is kept for it. -/
theorem Grows.keep {id : Nat} {name : String}
    (hgrows : Grows env (active ++ [(id, name)]) st st') (hnone : st.kept? id = none)
    (hactive : ∀ entry ∈ active, entry.1 ≠ id) (hmade : MadeFor env id a) :
    Grows env active st { st' with done := (id, a) :: st'.done } where
  stays {i b} hb := by
    have hne : id ≠ i := by
      rintro rfl
      rw [hnone] at hb
      cases hb
    rw [State.kept?_cons, if_neg hne]
    exact hgrows.stays hb
  made {i b} hb := by
    rw [State.kept?_cons] at hb
    split at hb
    · next hid =>
        cases hb
        exact .inr (hid ▸ hmade)
    · exact hgrows.made hb
  waiting entry he hb := by
    rw [State.kept?_cons, if_neg (hactive entry he).symm]
    exact hgrows.waiting entry (List.mem_append_left _ he) hb

/-- What is made for a function is kept for it. -/
theorem function_extends (fuel : Nat) (active : List (Nat × String)) (g : Function) :
    Extends env active (function env fuel active g) fun st a => st.kept? g.id = some a := by
  induction fuel using Nat.strong_induction_on generalizing active g with
  | _ fuel ih =>
      intro st a st' h
      obtain ⟨entry, hfind, rfl, rfl⟩ | ⟨hfind, hactive, n, st₁, rfl, hb, rfl⟩ := function_eq_ok h
      · exact ⟨.refl _, congrArg (Option.map Prod.snd) hfind⟩
      · have hne : ∀ entry ∈ active, entry.1 ≠ g.id := fun entry he hid =>
          hactive (List.any_eq_true.mpr ⟨entry, he, decide_eq_true hid⟩)
        obtain ⟨hgrows, -⟩ := compileUnit_extends (ih n n.lt_succ_self _) st a st₁ hb
        refine ⟨hgrows.keep (congrArg (Option.map Prod.snd) hfind) hne
          ⟨g, n, _, st, st₁, rfl, hb⟩, ?_⟩
        dsimp only
        rw [State.kept?_cons, if_pos rfl]

/-- What a bare name that the function calls is linked to: what is bound to it, what was compiled for
the function that is bound to it, or else a builtin. -/
inductive LinksTo (env : Linker) (f : Function) (name : String) : Target → Prop
  | native {n : Native} : env.lookup f.home name = some (.callable (.native n)) →
      LinksTo env f name (.native n)
  | artifact {a : Artifact} : env.lookup f.home name = some (.callable (.artifact a)) →
      LinksTo env f name (.artifact a)
  | compiled {c : Callable} {g : Function} {a : Artifact} :
      env.lookup f.home name = some (.callable c) → c.plain? = some g → MadeFor env g.id a →
      LinksTo env f name (.artifact a)
  | builtin {n : Native} : env.lookup f.home name = none → Native.builtin? name = some n →
      LinksTo env f name (.native n)

theorem Links.linksTo {t : Target} {name : String} (h : Links env st f.home name t)
    (made : ∀ {id b}, st.kept? id = some b → MadeFor env id b) : LinksTo env f name t := by
  cases h with
  | native hl => exact .native hl
  | artifact hl => exact .artifact hl
  | compiled hl hg ha => exact .compiled hl hg (made ha)
  | builtin hl hn => exact .builtin hl hn

/-- One target for each name that is linked. -/
theorem exists_link (env : Linker) (st : State) (home : NamespaceId) :
    ∃ link : String → Target, ∀ name t, Links env st home name t → t = link name := by
  have hone : ∀ name, ∃ u, ∀ t, Links env st home name t → t = u := by
    intro name
    by_cases h : ∃ u, Links env st home name u
    · obtain ⟨u, hu⟩ := h
      exact ⟨u, fun t ht => ht.unique hu⟩
    · exact ⟨.artifact default, fun t ht => absurd ⟨t, ht⟩ h⟩
  exact ⟨fun name => (hone name).choose, fun name => (hone name).choose_spec⟩

end Compile

namespace Linker

variable {env : Linker} {f : Function} {a : Artifact} {nextId n : Nat}

theorem exists_calleesOf (h : env.compile nextId f = .ok (a, n)) :
    ∃ st : Compile.State, (∀ {id b}, st.kept? id = some b → Compile.MadeFor env id b) ∧
      Compile.CalleesOf env st f a := by
  obtain ⟨st, hunit, -⟩ := unit_of_compile h
  obtain ⟨hgrows, hcallees⟩ :=
    Compile.compileUnit_extends (Compile.function_extends _ _) _ _ _ hunit
  exact ⟨st, (fun hb => (hgrows.made hb).resolve_left fun h => nomatch h), hcallees⟩

/-- The callees of an artifact are complete: the names are those that the function calls, each once,
and there is one target for each name, which all calls of it are linked to and which the recorded
fingerprint belongs to. -/
theorem callees_complete (h : env.compile nextId f = .ok (a, n)) :
    (Dictionary.keys a.callees).Nodup ∧
      (∀ name, name ∈ Dictionary.keys a.callees ↔ name ∈ f.definition.body.calledNames) ∧
      ∃ link : String → Target,
        (∀ name d, (name, d) ∈ a.callees →
          Compile.LinksTo env f name (link name) ∧ d = (link name).fingerprint) ∧
        List.Forall₂ (fun site t => ∀ name, site.callee.single? = some name → t = link name)
          f.definition.body.callSites a.body.targets := by
  obtain ⟨st, made, hcallees⟩ := exists_calleesOf h
  obtain ⟨link, hlink⟩ := Compile.exists_link env st f.home
  refine ⟨hcallees.recorded.distinct, hcallees.names, link, fun name d hmem => ?_, ?_⟩
  · obtain ⟨t, ht, rfl⟩ := hcallees.recorded.told hmem
    obtain rfl := hlink name t ht
    exact ⟨ht.linksTo made, rfl⟩
  · exact hcallees.linked.imp fun site t ht name hname => hlink name t (ht name hname)

/-- The function `fn f(a) { return not(true); a[not(0)] = abs(4); }` of namespace 1. -/
def deadCaller : Function :=
  let call (name : String) (arg : Expr) : Expr := .call ⟨name, []⟩ .dummy [arg] .dummy
  .build 3
    { markers := [], name := ⟨"f", .dummy⟩, params := [⟨"a", .dummy⟩],
      body := .mk
        [.give (some (call "not" (.bool true .dummy))) .dummy,
          .assign (.index ⟨"a", .dummy⟩ (call "not" (.num 0 .dummy)) .dummy)
            (call "abs" (.num 4 .dummy)) .dummy]
        none .dummy }
    .interactive 1 []

/-- Calls that are never made are linked and recorded as well. -/
theorem callees_complete_dead :
    ∃ a n, Function.negationWorld.linker.compile 4 deadCaller = .ok (a, n) ∧
      (Dictionary.keys a.callees).Nodup ∧
      (∀ name, name ∈ Dictionary.keys a.callees ↔ name = "abs" ∨ name = "not") := by
  have hok : (Function.negationWorld.linker.compile 4 deadCaller).isOk = true := by
    decide +kernel
  have hnames : deadCaller.definition.body.calledNames = ["abs", "not"] := by decide
  rcases h : Function.negationWorld.linker.compile 4 deadCaller with e | ⟨a, n⟩
  · rw [h] at hok
    cases hok
  · obtain ⟨hdistinct, hmem, -⟩ := callees_complete h
    refine ⟨a, n, rfl, hdistinct, fun name => (hmem name).trans ?_⟩
    rw [hnames]
    simp

end Linker

end Graft
