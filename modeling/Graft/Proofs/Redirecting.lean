import Graft.Proofs.Detection
import Graft.Proofs.Extraction
import Graft.Proofs.Rollback

/-!
# What a pass makes of a definition

A pass reads the source of a function again, decides the names that it calls and rebuilds the tree.
All of this comes to one recursion over the definition: each call of a name that is in the table and
bound where the function was defined goes to the alias of the name, wherever it stands, and nothing
else of the definition is different, apart from the marker `fs`.

Deciding a name may bind it to an artifact, and bind aliases. Neither changes which names of a text
are bound, so it does not matter when a name is decided.
-/

namespace Graft

/-! ## Calls that go to aliases -/

/-- The alias of the name that the path is, if it is a chosen one; otherwise the path. -/
def Path.redirect (chosen : String → Bool) : Path → Path
  | ⟨n, []⟩ => if chosen n then ⟨overrideAlias n, []⟩ else ⟨n, []⟩
  | p => p

/-- The expression with every call of a chosen name going to the alias of the name. -/
def Expr.redirect (chosen : String → Bool) : Expr → Expr
  | num x s => num x s
  | bool b s => bool b s
  | var n s => var n s
  | path p s => path p s
  | binary op l r s => binary op (l.redirect chosen) (r.redirect chosen) s
  | unary op e s => unary op (e.redirect chosen) s
  | call callee calleeSpan args s => call (callee.redirect chosen) calleeSpan (redirectAll args) s
  | index e i s => index (e.redirect chosen) (i.redirect chosen) s
  | slice e a b s => slice (e.redirect chosen) (a.redirect chosen) (b.redirect chosen) s
  | array es s => array (redirectAll es) s
  | tuple es s => tuple (redirectAll es) s
where
  redirectAll : List Expr → List Expr
    | [] => []
    | e :: es => e.redirect chosen :: redirectAll es

def Place.redirect (chosen : String → Bool) : Place → Place
  | var n s => var n s
  | discard s => discard s
  | index base i s => index base (i.redirect chosen) s

mutual

def Stmt.redirect (chosen : String → Bool) : Stmt → Stmt
  | .bind t e s => .bind t (e.redirect chosen) s
  | .assign p e s => .assign (p.redirect chosen) (e.redirect chosen) s
  | .assignTuple ps e s => .assignTuple (ps.map (Place.redirect chosen)) (e.redirect chosen) s
  | .branch c yes none s => .branch (c.redirect chosen) (Block.redirect chosen yes) none s
  | .branch c yes (some no) s =>
    .branch (c.redirect chosen) (Block.redirect chosen yes) (some (Block.redirect chosen no)) s
  | .forRange v a b body s =>
    .forRange v (a.redirect chosen) (b.redirect chosen) (Block.redirect chosen body) s
  | .whileLoop c body s => .whileLoop (c.redirect chosen) (Block.redirect chosen body) s
  | .eval e s => .eval (e.redirect chosen) s
  | .give (some e) s => .give (some (e.redirect chosen)) s
  | .give none s => .give none s
  termination_by structural x => x

/-- The block with every call of a chosen name, wherever it stands, going to the alias of the name. -/
def Block.redirect (chosen : String → Bool) : Block → Block
  | .mk ss none s => .mk (Block.redirectAll chosen ss) none s
  | .mk ss (some e) s => .mk (Block.redirectAll chosen ss) (some (e.redirect chosen)) s
  termination_by structural b => b

def Block.redirectAll (chosen : String → Bool) : List Stmt → List Stmt
  | [] => []
  | x :: ss => Stmt.redirect chosen x :: Block.redirectAll chosen ss
  termination_by structural ss => ss

end

/-! ## Rebuilding a tree redirects its calls -/

section

variable {rename : Path → Path} {chosen : String → Bool} {N : Names}

theorem Expr.retouch_eq_redirect (agree : ∀ p, N.calls p → rename p = p.redirect chosen) {e : Expr}
    (h : e.Throughout N.Admits) : e.retouch rename id = e.redirect chosen := by
  have all : ∀ es : List Expr,
      (∀ e ∈ es, e.Throughout N.Admits → e.retouch rename id = e.redirect chosen) →
      (∀ e ∈ es, e.Throughout N.Admits) →
      retouchAll rename id es = redirect.redirectAll chosen es := by
    intro es ih hes
    induction es with
    | nil => rfl
    | cons e es ih' =>
        show e.retouch rename id :: retouchAll rename id es = _
        rw [ih e List.mem_cons_self (hes e List.mem_cons_self),
          ih' (fun x hx => ih x (List.mem_cons_of_mem e hx))
            (fun x hx => hes x (List.mem_cons_of_mem e hx)), redirect.redirectAll]
  induction e with
  | num x s => rfl
  | bool b s => rfl
  | var n s => rfl
  | path p s => rfl
  | binary op l r s ihl ihr =>
      rw [throughout_binary] at h
      show binary op (l.retouch rename id) (r.retouch rename id) s = _
      rw [ihl h.1, ihr h.2.1, redirect]
  | unary op x s ih =>
      rw [throughout_unary] at h
      show unary op (x.retouch rename id) s = _
      rw [ih h.1, redirect]
  | call callee calleeSpan args s ih =>
      rw [throughout_call] at h
      show call (rename callee) calleeSpan (retouchAll rename id args) s = _
      rw [all args ih h.1, agree callee h.2, redirect]
  | index x i s ihx ihi =>
      rw [throughout_index] at h
      show index (x.retouch rename id) (i.retouch rename id) s = _
      rw [ihx h.1, ihi h.2.1, redirect]
  | slice x a b s ihx iha ihb =>
      rw [throughout_slice] at h
      show slice (x.retouch rename id) (a.retouch rename id) (b.retouch rename id) s = _
      rw [ihx h.1, iha h.2.1, ihb h.2.2.1, redirect]
  | array es s ih =>
      rw [throughout_array] at h
      show array (retouchAll rename id es) s = _
      rw [all es ih h.1, redirect]
  | tuple es s ih =>
      rw [throughout_tuple] at h
      show tuple (retouchAll rename id es) s = _
      rw [all es ih h.1, redirect]

theorem Place.retouch_eq_redirect (agree : ∀ p, N.calls p → rename p = p.redirect chosen) {p : Place}
    (h : ∀ x ∈ p.subterms, N.Admits x) : p.retouch rename id = p.redirect chosen := by
  cases p with
  | var n s => rfl
  | discard s => rfl
  | index base i s =>
      show index base (i.retouch rename id) s = _
      rw [Expr.retouch_eq_redirect agree h, redirect]

/-- Where the two ways of renaming agree on what a block calls, rebuilding the block redirects its
calls. -/
theorem Block.retouch_eq_redirect (agree : ∀ p, N.calls p → rename p = p.redirect chosen) {b : Block}
    (h : b.Throughout N.Admits) : b.retouch rename id = b.redirect chosen := by
  revert h
  have expr : ∀ {e : Expr}, e.Throughout N.Admits → e.retouch rename id = e.redirect chosen :=
    Expr.retouch_eq_redirect agree
  refine Block.induction
    (fun x => x.Throughout N.Admits → x.retouch rename id = x.redirect chosen)
    (fun b => b.Throughout N.Admits → b.retouch rename id = b.redirect chosen)
    ?bind ?assign ?assignTuple ?branch ?branchElse ?forRange ?whileLoop ?eval ?give ?mk b
  case bind =>
    intro t e s h
    show Stmt.bind t (e.retouch rename id) s = _
    rw [expr h, Stmt.redirect]
  case assign =>
    intro p e s h
    rw [Stmt.throughout_assign] at h
    show Stmt.assign (p.retouch rename id) (e.retouch rename id) s = _
    rw [Place.retouch_eq_redirect agree h.1, expr h.2, Stmt.redirect]
  case assignTuple =>
    intro ps e s h
    rw [Stmt.throughout_assignTuple] at h
    rw [Stmt.retouch_assignTuple, expr h.2, Stmt.redirect,
      List.map_congr_left fun p hp => Place.retouch_eq_redirect agree (h.1 p hp)]
  case branch =>
    intro c yes s ih h
    rw [Stmt.throughout_branch] at h
    show Stmt.branch (c.retouch rename id) (yes.retouch rename id) none s = _
    rw [expr h.1, ih h.2, Stmt.redirect]
  case branchElse =>
    intro c yes no s ihy ihn h
    rw [Stmt.throughout_branchElse] at h
    show Stmt.branch (c.retouch rename id) (yes.retouch rename id)
      (some (no.retouch rename id)) s = _
    rw [expr h.1, ihy h.2.1, ihn h.2.2, Stmt.redirect]
  case forRange =>
    intro v a b body s ih h
    rw [Stmt.throughout_forRange] at h
    show Stmt.forRange v (a.retouch rename id) (b.retouch rename id) (body.retouch rename id) s = _
    rw [expr h.1, expr h.2.1, ih h.2.2, Stmt.redirect]
  case whileLoop =>
    intro c body s ih h
    rw [Stmt.throughout_whileLoop] at h
    show Stmt.whileLoop (c.retouch rename id) (body.retouch rename id) s = _
    rw [expr h.1, ih h.2, Stmt.redirect]
  case eval =>
    intro e s h
    show Stmt.eval (e.retouch rename id) s = _
    rw [expr h, Stmt.redirect]
  case give =>
    intro v s h
    cases v with
    | none => rfl
    | some e =>
        show Stmt.give (some (e.retouch rename id)) s = _
        rw [expr h, Stmt.redirect]
  case mk =>
    intro ss tail s ih h
    rw [Block.throughout_mk] at h
    have hall : ∀ ss : List Stmt, (∀ x ∈ ss, x.retouch rename id = x.redirect chosen) →
        ss.map (Stmt.retouch rename id) = Block.redirectAll chosen ss := by
      intro ss hss
      induction ss with
      | nil => rfl
      | cons x ss ih =>
          rw [List.map_cons, hss x List.mem_cons_self,
            ih fun y hy => hss y (List.mem_cons_of_mem x hy), Block.redirectAll]
    rw [Block.retouch_mk, hall ss fun x hx => ih x hx (h.1 x hx)]
    cases tail with
    | none => rw [Option.map_none, Block.redirect]
    | some e => rw [Option.map_some, expr (h.2 e rfl), Block.redirect]

/-- Renaming leaves every expression at its place. -/
theorem Block.retouch_placed {b : Block} (h : b.Placed) : (b.retouch rename id).Placed := by
  intro e he
  rw [b.retouch_parts.1] at he
  obtain ⟨x, hx, rfl⟩ := List.mem_map.mp he
  rw [Expr.retouch_span]
  exact h x hx

end

namespace Pass

variable {table : Substitution} {debug : Bool} {id : NamespaceId} {s₀ s t : State}

theorem renamePath_eq_redirect {names : List String} {chosen : String → Bool} {p : Path}
    (h : ∀ n, p = ⟨n, []⟩ → (n ∈ names ↔ chosen n = true)) :
    renamePath names p = p.redirect chosen := by
  obtain ⟨n, rest⟩ := p
  cases rest with
  | cons m rest => rfl
  | nil =>
      have hn : names.contains n = chosen n := by
        rw [Bool.eq_iff_iff, List.contains_iff_mem]
        exact h n rfl
      show (if names.contains n = true then _ else _) = (if chosen n = true then _ else _)
      rw [hn]

/-- The calls that are renamed are all those of the names, wherever they stand in the body. -/
theorem renameCalls_eq_redirect {names : List String} {chosen : String → Bool} {b : Block}
    (h : ∀ n, b.Calls ⟨n, []⟩ → (n ∈ names ↔ chosen n = true)) :
    renameCalls names b = b.redirect chosen := by
  rw [renameCalls_eq]
  refine Block.retouch_eq_redirect (N := ⟨fun _ => True, fun p => True ∧ b.Calls p⟩) ?_
    (Block.within_calls (Names.within_all b.subterms))
  rintro p ⟨-, hp⟩
  refine renamePath_eq_redirect fun n hn => h n ?_
  rwa [← hn]

/-! ## Which names are bound -/

/-- A name that a text can hold is bound if it was bound at first. -/
def State.Covers (s₀ s : State) : Prop :=
  ∀ id n, PlainName n → (s.lookup id n).isSome = (s₀.lookup id n).isSome

theorem State.Covers.steady (s₀ : State) : State.Steady (State.Covers s₀) where
  of_alike hs h id n hn := by
    rw [h.lookup]
    exact hs id n hn
  replacement {s} id name r hs i n hn := by
    rcases s.lookup_install_cases id (overrideAlias name) name (.callable r) i n with
      h | ⟨⟨-, h⟩, -⟩
    · rw [h]
      exact hs i n hn
    · exact absurd h (hn name)
  artifact {s t} id name a hs ht hbound i n hn := by
    rcases t.lookup_install_cases id name name (.callable (.artifact a)) i n with
      h | ⟨⟨rfl, rfl⟩, h⟩
    · rw [h]
      exact ht i n hn
    · rw [h, ← hs i n hn, hbound]
      rfl

/-- The table replaces the name, and the name is bound, as the pass sees it. -/
def State.chooses (s : State) (table : Substitution) (id : NamespaceId) (n : String) : Bool :=
  (Dictionary.get? n table).isSome && (s.lookup id n).isSome

theorem Decided.eq_chooses {callee : Function → Pass Artifact} {name : String} {b : Bool}
    (h : Decided table callee id name s b t) : b = s.chooses table id name := by
  unfold State.chooses
  cases h with
  | unbound hl => simp [hl]
  | overridden hl hr _ => simp [hl, hr]
  | replaced hl hr _ _ => simp [hr]
  | kept hl hr _ => simp [hr]

/-- The names that go to their aliases can be told before any of them is decided. -/
theorem decideAll_eq_filter {callee : Function → Pass Artifact}
    (hcallee : ∀ f, Run.Preserves (State.Covers s₀) (callee f)) {names found : List String}
    (plain : ∀ n ∈ names, PlainName n) (hs : State.Covers s₀ s)
    (h : decideAll table debug callee id names s = (.ok found, t)) :
    found = names.filter (s₀.chooses table id) := by
  induction names generalizing s t found with
  | nil =>
      cases h
      rfl
  | cons n rest ih =>
      rw [decideAll] at h
      obtain ⟨b, s₁, hb, h⟩ := Run.bind_eq_ok h
      obtain ⟨more, t₁, hmore, h⟩ := Run.bind_eq_ok h
      have hs₁ : State.Covers s₀ s₁ := by
        have hkept : Run.Preserves (State.Covers s₀) (decide table debug callee id n) :=
          (State.Covers.steady s₀).decide hcallee id n
        have hs₁ := hkept s hs
        rwa [hb] at hs₁
      have hn : b = s₀.chooses table id n := by
        rw [(decide_eq_ok hb).eq_chooses, State.chooses, State.chooses,
          hs id n (plain n List.mem_cons_self)]
      have hrest : more = rest.filter (s₀.chooses table id) :=
        ih (fun m hm => plain m (List.mem_cons_of_mem n hm)) hs₁ hmore
      cases h
      rw [List.filter_cons, ← hn, ← hrest]

/-! ## The definition that a pass gives -/

theorem substituteFunction_redirects {callee : Function → Pass Artifact}
    (hcallee : ∀ f, Run.Preserves (State.Covers s) (callee f)) {f g : Function} {d : Definition}
    {span : Span} (hunit : f.extract = .ok ⟨[.function d span]⟩)
    (h : substituteFunction table debug callee f s = (.ok g, t)) :
    ∃ id, g = f.withDefinition id { d with
      markers := d.markers.filter fun m => m.text ≠ "fs"
      body := d.body.redirect (s.chooses table f.home) } := by
  obtain ⟨s₁, t₁, names, ⟨halike, -⟩, -, hnames, -, hg⟩ := substituteFunction_of_extract hunit h
  have hplain := Function.within_plain_of_extract hunit
  have hcovers : State.Covers s s₁ := fun id n _ => by rw [halike.lookup]
  have hnames : names = (calledInOrder d.body).filter (s.chooses table f.home) :=
    decideAll_eq_filter hcallee
      (fun n hn => Block.calls_of_within hplain.uses (mem_calledInOrder.mp hn)) hcovers hnames
  -- No expression is without a place, so none is given another one.
  have hplaced : (renameCalls names d.body).Placed := by
    rw [renameCalls_eq]
    exact Block.retouch_placed (Function.placed_of_extract hunit)
  have hbody : renameCalls names d.body = d.body.redirect (s.chooses table f.home) := by
    refine renameCalls_eq_redirect fun n hn => ?_
    rw [hnames, List.mem_filter]
    exact and_iff_right (mem_calledInOrder.mpr hn)
  rw [reassemble_eq_ok hg, Function.fixSpans_of_placed hplaced, hbody]
  exact ⟨_, rfl⟩

/-- A pass over a function, in whatever state it starts, gives the definition in the source of the
function without the marker `fs`, and with the calls of every name that the table replaces and that is
bound going to the alias of the name. Nothing else is different, and origin, namespace and captured
values are those of the function. -/
theorem specialize_redirects {fuel : Nat} {active : List (Nat × String)} {f g : Function}
    {d : Definition} {span : Span} (hunit : f.extract = .ok ⟨[.function d span]⟩)
    (h : specialize table debug fuel active f s = (.ok g, t)) :
    g.definition =
        { d with
          markers := d.markers.filter fun m => m.text ≠ "fs"
          body := d.body.redirect (s.chooses table f.home) } ∧
      g.captures = f.captures ∧ g.home = f.home ∧ g.origin = f.origin := by
  rw [specialize.eq_def] at h
  split at h
  · cases h
  · cases fuel with
    | zero => cases h
    | succ fuel =>
        have steady := State.Covers.steady s
        obtain ⟨id, rfl⟩ := substituteFunction_redirects (fun k =>
          (steady.specialize table debug fuel _ k).bind fun _ => steady.compile _) hunit h
        exact ⟨rfl, rfl, rfl, rfl⟩

/-- A text with a marked function that calls names in an index, in an argument and in a module. -/
def placesText : SourceText :=
  ⟨"m.fst", "@fs fn f(xs) { xs[g(0)] = h(g(xs[1])); math.sqrt(xs[0]) }\n" ++
    "fn g(x) { x }\nfn h(x) { x }\n"⟩

def placesFunction : Function := loadAt placesText 2 ⟨0, 57⟩

/-- A world where the two other functions of the text are bound. -/
def placesWorld : World :=
  { nextId := 5
    namespaces := [(1, { name := "m"
                         globals := [("g", .callable (.function (loadAt placesText 3 ⟨58, 71⟩))),
                           ("h", .callable (.function (loadAt placesText 4 ⟨72, 85⟩)))] })] }

theorem specialize_redirects_places :
    ∃ g t, specialize chainTable false 3 [] placesFunction (.start .shared placesWorld) =
        (.ok g, t) ∧
      g.definition.markers = [] ∧
      g.definition.body.callSites.map (fun site => site.callee.dotted) =
        ["g@override", "g@override", "h", "math.sqrt"] := by
  have hok : (specialize chainTable false 3 [] placesFunction
      (.start .shared placesWorld)).1.isOk = true := by decide +kernel
  have hmarkers : (placesFunction.definition.markers.filter fun m => m.text ≠ "fs") = [] := by
    decide +kernel
  have hsites : (placesFunction.definition.body.redirect
      ((State.start .shared placesWorld).chooses chainTable placesFunction.home)).callSites.map
        (fun site => site.callee.dotted) = ["g@override", "g@override", "h", "math.sqrt"] := by
    decide +kernel
  obtain ⟨span, hunit⟩ : placesFunction.Rereads := rereads_loadAt (by decide +kernel)
  rcases h : specialize chainTable false 3 [] placesFunction (.start .shared placesWorld) with
    ⟨e | g, t⟩
  · rw [h] at hok
    cases hok
  · obtain ⟨hdefinition, -⟩ := specialize_redirects hunit h
    refine ⟨g, t, rfl, ?_, ?_⟩
    · rw [hdefinition, hmarkers]
    · rw [hdefinition, hsites]

/-- A function that was made of a changed unit is read again as it was before, so a pass over it gives
the definition of another function. -/
theorem specialize_not_redirects :
    ∃ f g t, chainFirst.reassemble 5 chainUnit = .ok f ∧
      specialize [] false 4 [] f (.start .separate chainWorld) = (.ok g, t) ∧
      g.definition ≠ { f.definition with
        markers := f.definition.markers.filter fun m => m.text ≠ "fs"
        body := f.definition.body.redirect
          ((State.start .separate chainWorld).chooses [] f.home) } := by
  have hcheck : ((chainFirst.reassemble 5 chainUnit).toOption.any fun f =>
      (f.definition.body.redirect
        ((State.start .separate chainWorld).chooses [] f.home)).callSites.isEmpty &&
      (specialize [] false 4 [] f (.start .separate chainWorld)).1.toOption.any
        fun g => !g.definition.body.callSites.isEmpty) = true := by decide +kernel
  cases hf : chainFirst.reassemble 5 chainUnit with
  | error d =>
      rw [hf] at hcheck
      cases hcheck
  | ok f =>
      rw [hf] at hcheck
      obtain ⟨hcalls, hpass⟩ := Bool.and_eq_true_iff.mp hcheck
      rcases h : specialize [] false 4 [] f (.start .separate chainWorld) with ⟨e | g, t⟩
      · rw [h] at hpass
        cases hpass
      · rw [h] at hpass
        refine ⟨f, g, t, rfl, h, fun heq => ?_⟩
        change (!g.definition.body.callSites.isEmpty) = true at hpass
        rw [heq, hcalls] at hpass
        cases hpass

end Pass

end Graft
