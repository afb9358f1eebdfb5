import Graft.Module
import Graft.Proofs.Bindings
import Graft.Proofs.Rollback
import Mathlib.Data.List.Basic

/-!
# What a text with mistakes leaves behind

The items of a text are read one by one, functions and imports before constants, and each either
binds its name or is reported. A reading that reports anything keeps no text, but the bindings of the
items that nothing is wrong with stay: the namespace is then what defining those makes of it, and no
other namespace is touched.
-/

namespace Graft

/-! ## Defining many names -/

/-- Defines names one after the other. -/
def Namespace.defineAll (ns : Namespace) (entries : List (String × Global)) : Namespace :=
  entries.foldl (fun ns entry => ns.define entry.1 entry.2) ns

namespace Namespace

theorem defineAll_cons (ns : Namespace) (entry : String × Global) (rest : List (String × Global)) :
    ns.defineAll (entry :: rest) = (ns.define entry.1 entry.2).defineAll rest := rfl

@[simp] theorem generation_defineAll (ns : Namespace) (entries : List (String × Global)) :
    (ns.defineAll entries).generation = ns.generation + entries.length := by
  induction entries generalizing ns with
  | nil => rfl
  | cons entry rest ih =>
      rw [defineAll_cons, ih, generation_define, List.length_cons]
      omega

/-- Names that are not defined keep their binding. -/
theorem get?_defineAll_of_notMem {name : String} {entries : List (String × Global)}
    (h : name ∉ entries.map Prod.fst) (ns : Namespace) :
    (ns.defineAll entries).get? name = ns.get? name := by
  induction entries generalizing ns with
  | nil => rfl
  | cons entry rest ih =>
      rw [List.map_cons, List.mem_cons, not_or] at h
      rw [defineAll_cons, ih h.2, get?_define_of_ne h.1]

/-- Of several bindings of one name the last one counts. -/
theorem get?_defineAll_append_cons {name : String} {g : Global}
    {before after : List (String × Global)} (h : name ∉ after.map Prod.fst) (ns : Namespace) :
    (ns.defineAll (before ++ (name, g) :: after)).get? name = some g := by
  rw [defineAll, List.foldl_append]
  exact (get?_defineAll_of_notMem h _).trans (get?_define_self _ name g)

end Namespace

namespace World

variable {w v : World} {home : NamespaceId}

theorem Same.update (h : w.Same v) (id : NamespaceId) (f : Namespace → Namespace) :
    (w.update id f).Same (v.update id f) := by
  refine ⟨fun i => ?_, ?_, h.settings⟩
  · rw [namespace?_update, namespace?_update, h.spaces i]
  · rw [ids_update, ids_update, h.ids]

/-- Defines names in one namespace. -/
def defineAll (w : World) (home : NamespaceId) (entries : List (String × Global)) : World :=
  w.update home (·.defineAll entries)

theorem defineAll_nil (w : World) (home : NamespaceId) : (w.defineAll home []).Same w := by
  refine ⟨fun i => ?_, ids_update w home _, rfl⟩
  rw [defineAll, namespace?_update]
  split
  · exact congrFun Option.map_id (w.namespace? i)
  · rfl

theorem defineAll_cons (w : World) (home : NamespaceId) (entry : String × Global)
    (rest : List (String × Global)) :
    (w.defineAll home (entry :: rest)).Same ((w.define home entry.1 entry.2).defineAll home rest) := by
  refine ⟨fun i => ?_, by simp only [defineAll, define, ids_update], rfl⟩
  simp only [defineAll, define, namespace?_update]
  split
  · rw [Option.map_map]
    rfl
  · rfl

end World

/-! ## What items come to -/

namespace Item

variable {home : NamespaceId} {origin : Span → Origin} {w v u : World}

def isConstant : Item → Bool
  | .constant .. => true
  | _ => false

/-- What reading an item in a world comes to: the binding that it makes, or what is wrong with it. -/
inductive Reads (home : NamespaceId) (origin : Span → Origin) (w : World) :
    Item → Outcome (String × Global) → Prop
  | function {d : Definition} {span : Span} {c : Callable} {v : World} :
      callableOf home d (origin span) w = (.ok c, v) →
      Reads home origin w (.function d span) (.ok (d.name.text, .callable c))
  | import_ (p : Path) (pathSpan span : Span) :
      Reads home origin w (.import_ p pathSpan span) (imported p pathSpan)
  | constant {name : Ident} {e : Expr} {span : Span} {a : Value} {v : World} :
      Act.evalConstant home e w = (.ok a, v) →
      Reads home origin w (.constant name e span) (.ok (name.text, .constant a))
  | failing {name : Ident} {e : Expr} {span : Span} {d : Diagnostic} {v : World} :
      Act.evalConstant home e w = (.error (.report d), v) →
      Reads home origin w (.constant name e span) (.error (d.orSpan e.span))

/-- The bindings among what items come to. -/
def bound (outcomes : List (Outcome (String × Global))) : List (String × Global) :=
  outcomes.filterMap Except.toOption

/-- The reports among what items come to. -/
def failed (outcomes : List (Outcome (String × Global))) : List Diagnostic :=
  outcomes.filterMap fun
    | .ok _ => none
    | .error d => some d

section
variable (entry : String × Global) (d : Diagnostic) (os : List (Outcome (String × Global)))

@[simp] theorem bound_ok : bound (.ok entry :: os) = entry :: bound os := rfl

@[simp] theorem bound_error : bound (.error d :: os) = bound os := rfl

@[simp] theorem failed_ok : failed (.ok entry :: os) = failed os := rfl

@[simp] theorem failed_error : failed (.error d :: os) = d :: failed os := rfl

end

/-- Items come to these outcomes one after the other, each in the world that the ones before it left
behind. Between two items nothing happens to the namespaces but the binding of the first. -/
inductive ReadInTurn (home : NamespaceId) (origin : Span → Origin) :
    World → List Item → List (Outcome (String × Global)) → World → Prop
  | nil (w : World) : ReadInTurn home origin w [] [] w
  | cons {w v u : World} {item : Item} {rest : List Item} {o : Outcome (String × Global)}
      {outcomes : List (Outcome (String × Global))} :
      Reads home origin w item o → (w.defineAll home (bound [o])).Same v →
      ReadInTurn home origin v rest outcomes u →
      ReadInTurn home origin w (item :: rest) (o :: outcomes) u

namespace ReadInTurn

variable {items others : List Item} {os ps : List (Outcome (String × Global))}

theorem append (h : ReadInTurn home origin w items os v)
    (h' : ReadInTurn home origin v others ps u) :
    ReadInTurn home origin w (items ++ others) (os ++ ps) u := by
  induction h with
  | nil w => exact h'
  | cons hread hsame _ ih => exact .cons hread hsame (ih h')

/-- In the end the names are bound that were read well. -/
theorem same (h : ReadInTurn home origin w items os u) : (w.defineAll home (bound os)).Same u := by
  induction h with
  | nil w => exact w.defineAll_nil home
  | @cons w v u item rest o outcomes hread hsame _ ih =>
      refine World.Same.trans ?_ ((hsame.update home _).trans ih)
      cases o with
      | error d => exact ((w.defineAll_nil home).update home _).symm
      | ok entry =>
          refine (w.defineAll_cons home entry _).trans ?_
          exact ((w.defineAll_cons home entry []).trans
            (World.defineAll_nil _ home)).symm.update home _

theorem length_eq (h : ReadInTurn home origin w items os u) :
    (bound os).length + (failed os).length = items.length := by
  induction h with
  | nil w => rfl
  | @cons w v u item rest o outcomes hread hsame _ ih =>
      cases o with
      | error d =>
          rw [bound_error, failed_error, List.length_cons, List.length_cons, ← Nat.add_assoc, ih]
      | ok entry =>
          rw [bound_ok, failed_ok, List.length_cons, List.length_cons, Nat.add_right_comm, ih]

end ReadInTurn

/-! ## The two sweeps -/

/-- What is told of outcomes. -/
def loadedOf (outcomes : List (Outcome (String × Global))) : Loaded :=
  ⟨(bound outcomes).map Prod.fst, failed outcomes⟩

theorem loadedOf_append (os ps : List (Outcome (String × Global))) :
    loadedOf (os ++ ps) = (loadedOf os).append (loadedOf ps) := by
  simp [loadedOf, bound, failed, Loaded.append]

theorem define_same (h : w.Same v) (home : NamespaceId) (name : String) (g : Global) :
    (w.defineAll home [(name, g)]).Same (v.define home name g) :=
  h.update home _

theorem transparent_callableOf (home : NamespaceId) (d : Definition) (origin : Origin) :
    Act.Transparent (callableOf home d origin) := fun w =>
  (Act.transparent_freshId w).bind fun _ =>
    .ite ((Act.transparent_freshId w).bind fun _ => .pure _) (.pure _)

theorem transparent_evalConstant (home : NamespaceId) (e : Expr) :
    Act.Transparent (Act.evalConstant home e) := fun w =>
  (Act.transparent_freshId w).bind fun _ =>
    Function.transparent_callWith (Gateway.transparent_callBound ampleFuel) _ [] w

variable {item : Item} {loaded : Loaded}

/-- A function or an import is read when it is declared. -/
theorem reads_of_declare (hitem : item.isConstant = false)
    (h : item.declare home origin w = (.ok loaded, v)) :
    ∃ o, Reads home origin w item o ∧ (w.defineAll home (bound [o])).Same v ∧
      loaded = loadedOf [o] := by
  cases item with
  | constant name e span => cases hitem
  | function d span =>
      obtain ⟨c, u, hc, h⟩ := Run.bind_eq_ok h
      cases h
      exact ⟨_, .function hc,
        define_same ((transparent_callableOf home d (origin span)).same_of_eq hc) .., rfl⟩
  | import_ p pathSpan span =>
      refine ⟨_, .import_ p pathSpan span, ?_⟩
      rw [declare] at h
      cases hp : imported p pathSpan with
      | error d =>
          rw [hp] at h
          cases h
          exact ⟨w.defineAll_nil home, rfl⟩
      | ok entry =>
          rw [hp] at h
          cases h
          exact ⟨define_same (.refl w) .., rfl⟩

/-- A constant is read when it is evaluated. -/
theorem reads_of_evaluate (hitem : item.isConstant = true)
    (h : item.evaluate home w = (.ok loaded, v)) :
    ∃ o, Reads home origin w item o ∧ (w.defineAll home (bound [o])).Same v ∧
      loaded = loadedOf [o] := by
  cases item with
  | function d span => cases hitem
  | import_ p pathSpan span => cases hitem
  | constant name e span =>
      rw [evaluate, Run.tryCatch_apply, Run.bind_apply] at h
      rcases he : Act.evalConstant home e w with ⟨(d | _) | a, u⟩
      · rw [he] at h
        cases h
        exact ⟨_, .failing he,
          (w.defineAll_nil home).trans ((transparent_evalConstant home e).same_of_eq he), rfl⟩
      · rw [he] at h
        cases h
      · rw [he] at h
        cases h
        exact ⟨_, .constant he,
          define_same ((transparent_evalConstant home e).same_of_eq he) .., rfl⟩

theorem declare_constant (item : Item) (hitem : (!item.isConstant) = false) :
    item.declare home origin = pure {} := by
  cases item with
  | constant name e span => rfl
  | function d span => cases hitem
  | import_ p pathSpan span => cases hitem

theorem evaluate_declaration (item : Item) (hitem : item.isConstant = false) :
    item.evaluate home = pure {} := by
  cases item with
  | constant name e span => cases hitem
  | function d span => rfl
  | import_ p pathSpan span => rfl

/-- A sweep over items reads the ones that it is for, and leaves the others. -/
theorem readInTurn_of_each {step : Item → Act Loaded} {wanted : Item → Bool}
    (reads : ∀ {item w loaded v}, wanted item = true → step item w = (.ok loaded, v) →
      ∃ o, Reads home origin w item o ∧ (w.defineAll home (bound [o])).Same v ∧
        loaded = loadedOf [o])
    (leaves : ∀ item, wanted item = false → step item = pure {})
    {items : List Item} {w : World} (h : each step items w = (.ok loaded, v)) :
    ∃ os, ReadInTurn home origin w (items.filter wanted) os v ∧ loaded = loadedOf os := by
  induction items generalizing w loaded with
  | nil =>
      cases h
      exact ⟨[], .nil _, rfl⟩
  | cons item rest ih =>
      obtain ⟨first, u, hfirst, h⟩ := Run.bind_eq_ok h
      obtain ⟨others, t, hothers, h⟩ := Run.bind_eq_ok h
      cases h
      obtain ⟨os, hrest, rfl⟩ := ih hothers
      cases hitem : wanted item with
      | true =>
          obtain ⟨o, hread, hsame, rfl⟩ := reads hitem hfirst
          rw [List.filter_cons_of_pos hitem]
          exact ⟨o :: os, .cons hread hsame hrest, (loadedOf_append [o] os).symm⟩
      | false =>
          rw [leaves item hitem] at hfirst
          cases hfirst
          rw [List.filter_cons_of_neg (Bool.eq_false_iff.mp hitem)]
          exact ⟨os, hrest, rfl⟩

end Item

/-- The items in the order in which they are bound: constants come last. -/
def Program.inOrder (p : Program) : List Item :=
  p.items.filter (fun item => !item.isConstant) ++ p.items.filter Item.isConstant

theorem Program.readInTurn_of_bindItems {p : Program} {home : NamespaceId} {origin : Span → Origin}
    {w v : World} {loaded : Loaded} (h : p.bindItems home origin w = (.ok loaded, v)) :
    ∃ os, Item.ReadInTurn home origin w p.inOrder os v ∧ loaded = Item.loadedOf os := by
  obtain ⟨declared, u, hdeclared, h⟩ := Run.bind_eq_ok h
  obtain ⟨evaluated, t, hevaluated, h⟩ := Run.bind_eq_ok h
  cases h
  obtain ⟨os, hos, rfl⟩ := Item.readInTurn_of_each (fun hitem => Item.reads_of_declare
    ((Bool.not_eq_true' _).mp hitem)) Item.declare_constant hdeclared
  obtain ⟨ps, hps, rfl⟩ := Item.readInTurn_of_each Item.reads_of_evaluate
    Item.evaluate_declaration hevaluated
  exact ⟨os ++ ps, hos.append hps, (Item.loadedOf_append os ps).symm⟩

/-! ## Reports -/

/-- The run does not end in a report. -/
def Run.Unreported {σ α : Type} (x : Run σ α) : Prop := ∀ s d, (x s).1 ≠ .error (.report d)

namespace Run.Unreported

variable {σ α β : Type} {x : Run σ α} {f : α → Run σ β}

theorem pure (a : α) : Run.Unreported (pure a : Run σ α) := fun _ _ h => nomatch h

theorem bind (h : Run.Unreported x) (step : ∀ a, Run.Unreported (f a)) :
    Run.Unreported (x >>= f) := by
  intro s d he
  rcases Run.bind_eq_error (Prod.ext he rfl) with hx | ⟨a, t, -, hf⟩
  · exact h s d (congrArg Prod.fst hx)
  · exact step a t d (congrArg Prod.fst hf)

end Run.Unreported

namespace Item

theorem unreported_callableOf (home : NamespaceId) (d : Definition) (origin : Origin) :
    Run.Unreported (callableOf home d origin) := by
  have hfresh : Run.Unreported Act.freshId := fun _ _ h => nomatch h
  refine hfresh.bind fun id => ?_
  dsimp only
  split
  · exact hfresh.bind fun _ => .pure _
  · exact .pure _

theorem unreported_bindName (home : NamespaceId) (name : String) (g : Global) :
    Run.Unreported (bindName home name g) := fun _ _ h => nomatch h

theorem unreported_declare (home : NamespaceId) (origin : Span → Origin) (item : Item) :
    Run.Unreported (item.declare home origin) := by
  cases item with
  | function d span =>
      exact (unreported_callableOf home d _).bind fun _ => unreported_bindName home _ _
  | import_ p pathSpan span =>
      rw [declare]
      split
      · exact unreported_bindName home _ _
      · exact .pure _
  | constant name e span => exact .pure _

theorem unreported_evaluate (home : NamespaceId) (item : Item) :
    Run.Unreported (item.evaluate home) := by
  cases item with
  | function d span => exact .pure _
  | import_ p pathSpan span => exact .pure _
  | constant name e span =>
      intro s d h
      rw [evaluate, Run.tryCatch_apply] at h
      split at h
      · cases h
      · next fault t _ =>
          cases fault with
          | report d' => cases h
          | exhausted => cases h

theorem unreported_each {step : Item → Act Loaded} (h : ∀ item, Run.Unreported (step item))
    (items : List Item) : Run.Unreported (each step items) := by
  induction items with
  | nil => exact .pure _
  | cons item rest ih => exact (h item).bind fun _ => ih.bind fun _ => .pure _

end Item

theorem Program.unreported_bindItems (p : Program) (home : NamespaceId) (origin : Span → Origin) :
    Run.Unreported (p.bindItems home origin) :=
  (Item.unreported_each (Item.unreported_declare home origin) _).bind fun _ =>
    (Item.unreported_each (Item.unreported_evaluate home) _).bind fun _ => .pure _

theorem Program.length_inOrder (p : Program) : p.inOrder.length = p.items.length := by
  rw [inOrder, List.length_append, Nat.add_comm]
  exact (List.length_eq_length_filter_add Item.isConstant).symm

namespace Module

variable {m : Module} {file source : String} {origin : Span → Origin} {w v : World}
  {reports : List Diagnostic}

/-- The module that one goes on with after more source was read into it. -/
def after (m : Module) : Checked (Module × List String) → Module
  | .ok (extended, _) => extended
  | .error _ => m

/-- What a reading that reports leaves behind: everything is as it was if the text is malformed, and
otherwise the items are bound that nothing is wrong with, and nothing else. -/
def LeavesSound (m : Module) (source : String) (origin : Span → Origin) (reports : List Diagnostic)
    (w v : World) : Prop :=
  (Program.parse source = .error reports ∧ v = w) ∨
    ∃ p outcomes, Program.parse source = .ok p ∧
      Item.ReadInTurn m.home origin w p.inOrder outcomes v ∧
      reports = Item.failed outcomes ∧ reports ≠ [] ∧
      (Item.bound outcomes).length + reports.length = p.items.length ∧
      (∀ id, id ≠ m.home → v.namespace? id = w.namespace? id) ∧
      ∀ ns, w.namespace? m.home = some ns →
        ∃ left, v.namespace? m.home = some left ∧ left = ns.defineAll (Item.bound outcomes) ∧
          left.generation = ns.generation + (Item.bound outcomes).length ∧
          ∀ name, name ∉ (Item.bound outcomes).map Prod.fst → left.get? name = ns.get? name

theorem leavesSound_of_readItems
    (h : m.readItems source origin w = (.ok (.error reports), v)) :
    m.LeavesSound source origin reports w v := by
  rw [readItems] at h
  cases hp : Program.parse source with
  | error malformed =>
      rw [hp] at h
      cases h
      exact .inl ⟨hp, rfl⟩
  | ok p =>
      rw [hp] at h
      obtain ⟨loaded, u, hbind, h⟩ := Run.bind_eq_ok h
      obtain ⟨outcomes, hturn, rfl⟩ := Program.readInTurn_of_bindItems hbind
      rw [Run.pure_apply] at h
      split at h
      · cases h
      · next hreports =>
          cases h
          have hsame := hturn.same
          refine .inr ⟨p, outcomes, hp, hturn, rfl, fun hnone => hreports ?_, ?_, fun id hid => ?_,
            fun ns hns => ⟨_, ?_, rfl, ?_, fun name hname => ?_⟩⟩
          · exact List.isEmpty_iff.mpr hnone
          · rw [← p.length_inOrder]
            exact hturn.length_eq
          · rw [← hsame.spaces id, World.defineAll, World.namespace?_update, if_neg hid]
          · rw [← hsame.spaces m.home, World.defineAll, World.namespace?_update, if_pos rfl, hns]
            rfl
          · exact ns.generation_defineAll _
          · exact Namespace.get?_defineAll_of_notMem hname ns

theorem extend_apply (m : Module) (file source : String) (w : World) :
    m.extend file source w =
      match m.readItems source (.source ⟨file, source⟩) w with
      | (.ok (.ok names), v) =>
          (.ok (.ok ({ m with sources := m.sources ++ [⟨file, source⟩] }, names)), v)
      | (.ok (.error reports), v) => (.ok (.error reports), v)
      | (.error e, v) => (.error e, v) := by
  rw [extend, Run.bind_apply]
  rcases m.readItems source (.source ⟨file, source⟩) w with ⟨e | (reports | names), v⟩ <;> rfl

/-- Reading tells what is wrong by what it gives. -/
theorem unreported_readItems (m : Module) (source : String) (origin : Span → Origin) :
    Run.Unreported (m.readItems source origin) := by
  rw [readItems]
  split
  · exact .pure _
  · next p _ => exact (p.unreported_bindItems m.home origin).bind fun _ => .pure _

theorem unreported_extend (m : Module) (file source : String) :
    Run.Unreported (m.extend file source) := by
  refine (m.unreported_readItems source _).bind fun r => ?_
  cases r with
  | ok names => exact .pure _
  | error reports => exact .pure _

/-- A reading keeps the text just if nothing is wrong with it. If it reports, it changes no other
namespace, and binds in its own exactly the items that nothing is wrong with. -/
theorem reading_binds_sound_items (m : Module) (file source : String) (w : World) :
    (∀ r v, m.extend file source w = (.ok r, v) →
      (m.after r).sources = m.sources ++ if r.isOk then [⟨file, source⟩] else []) ∧
    (∀ d, (m.extend file source w).1 ≠ .error (.report d)) ∧
    (∀ reports v, m.extend file source w = (.ok (.error reports), v) →
      m.LeavesSound source (.source ⟨file, source⟩) reports w v) ∧
    (∀ d, (m.evaluate source w).1 ≠ .error (.report d)) ∧
    ∀ reports v, m.evaluate source w = (.ok (.error reports), v) →
      m.LeavesSound source (fun _ => .interactive) reports w v := by
  refine ⟨fun r v h => ?_, m.unreported_extend file source w, fun reports v h => ?_,
    m.unreported_readItems source (fun _ => .interactive) w,
    fun reports v h => leavesSound_of_readItems h⟩
  · rw [extend_apply] at h
    split at h
    · cases h
      rfl
    · cases h
      exact (List.append_nil _).symm
    · cases h
  · rw [extend_apply] at h
    split at h
    · cases h
    · next hread =>
        cases h
        exact leavesSound_of_readItems hread
    · cases h

/-- A module that binds `f` and `g`, before more source is read into it. -/
def mixedWorld : World :=
  { nextId := 2
    namespaces := [(1, { name := "m", generation := 2
                         globals := [("f", .constant (.bool true)), ("g", .constant .unit)] })] }

/-- An import and a constant of it are wrong. -/
def mixedText : String :=
  "fn f(x) { !x }\nuse math.nope\nconst K = f(true)\nconst L = g(true)\n"

def mixedRun : Except Fault (Checked (Module × List String)) × World :=
  (Module.mk "m" 1 []).extend "more.fst" mixedText mixedWorld

/-- What was reported where a reading ended with mistakes. -/
def mistakes? : Except Fault (Checked (Module × List String)) → Option (List Diagnostic)
  | .ok (.error reports) => some reports
  | _ => none

theorem eq_of_mistakes {r : Except Fault (Checked (Module × List String))}
    {reports : List Diagnostic} (h : mistakes? r = some reports) : r = .ok (.error reports) := by
  unfold mistakes? at h
  split at h
  · cases h
    rfl
  · cases h

theorem reading_binds_sound_items_mixed :
    ∃ reports v, mixedRun = (.ok (.error reports), v) ∧ reports.length = 2 ∧
      (Module.mk "m" 1 []).LeavesSound mixedText (.source ⟨"more.fst", mixedText⟩) reports
        mixedWorld v := by
  have hcheck : (mistakes? mixedRun.1).map List.length = some 2 := by decide +kernel
  obtain ⟨-, -, hleaves, -⟩ := reading_binds_sound_items ⟨"m", 1, []⟩ "more.fst" mixedText mixedWorld
  obtain ⟨reports, hreports, hlength⟩ := Option.map_eq_some_iff.mp hcheck
  have hrun : mixedRun = (.ok (.error reports), mixedRun.2) :=
    Prod.ext (eq_of_mistakes hreports) rfl
  exact ⟨reports, mixedRun.2, hrun, hlength, hleaves reports mixedRun.2 hrun⟩

def isTrue : Global → Bool
  | .constant (.bool b) => b
  | _ => false

/-- Of a text with mistakes something stays: a name is bound anew, and the namespace has changed. -/
theorem reading_not_atomic :
    ∃ reports v, mixedRun = (.ok (.error reports), v) ∧
      v.lookup 1 "f" ≠ mixedWorld.lookup 1 "f" ∧ v.generations 1 ≠ mixedWorld.generations 1 := by
  have hmistakes : (mistakes? mixedRun.1).isSome = true := by decide +kernel
  have hbound : (mixedRun.2.lookup 1 "f").any isTrue = false := by decide +kernel
  have hchanged : mixedRun.2.generations 1 = some 4 := by decide +kernel
  obtain ⟨reports, hreports⟩ := Option.isSome_iff_exists.mp hmistakes
  refine ⟨reports, mixedRun.2, Prod.ext (eq_of_mistakes hreports) rfl, fun hf => ?_,
    fun hgeneration => ?_⟩
  · rw [hf] at hbound
    cases hbound
  · rw [hgeneration] at hchanged
    cases hchanged

end Module

end Graft
