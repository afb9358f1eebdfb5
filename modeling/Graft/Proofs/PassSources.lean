import Graft.CorePasses
import Graft.Proofs.Agreement
import Graft.Proofs.Bindings

/-!
# Sources of core passes

A core pass is read from a text of two definitions: its hook, which is bound next to it under the
name `value`, and the pass itself, which becomes a gateway. What loading such a text binds is told
once, whatever the two definitions are.
-/

namespace Graft

namespace CorePasses

/-- The text of the module of a pass, what it is read as, and what the part of the text that the pass
stands in is read as. -/
structure PassSource where
  name : String
  source : String
  hook : Definition
  hookSpan : Span
  definition : Definition
  /-- Where the pass stands in its text. -/
  span : Span
  parse : Program.parse source =
    .ok ⟨[.function hook hookSpan, .function definition span]⟩
  ofScan : Program.ofScan (Scan.range source span.start span.stop) =
    .ok ⟨[.function definition span]⟩
  hookName : hook.name.text = "value"
  hookPlain : hook.isMarked "fs" = false
  passName : definition.name.text = name
  passMarked : definition.isMarked "fs" = true
  name_ne_value : name ≠ "value"
  name_ne_len : name ≠ "len"

namespace PassSource

variable (p : PassSource) (w : World)

def text : SourceText := ⟨Module.fileName p.name, p.source⟩

/-- The hook, as it is bound next to the pass. -/
def loadedHook : Function :=
  .build (w.nextId + 1) p.hook (.source p.text p.hookSpan) w.nextId []

/-- The pass, as it is bound. -/
def loadedPass : Gateway where
  id := w.nextId + 3
  function := .build (w.nextId + 2) p.definition (.source p.text p.span) w.nextId []

/-- The module of the pass. -/
def loadedModule : Module := { name := p.name, home := w.nextId, sources := [p.text] }

/-- The world after the module was loaded. -/
def afterLoad : World :=
  ({ (w.addNamespace p.name).2 with nextId := w.nextId + 4 }.define w.nextId "value"
    (.callable (.function (p.loadedHook w)))).define w.nextId p.name
      (.callable (.gateway (p.loadedPass w)))

theorem load :
    Module.load p.name p.source w = (.ok (.ok (p.loadedModule w)), p.afterLoad w) := by
  let m : Module := { name := p.name, home := w.nextId }
  have hempty : Module.empty p.name w = (.ok m, (w.addNamespace p.name).2) := rfl
  have hread : m.readItems p.source (.source p.text) (w.addNamespace p.name).2 =
      (.ok (.ok ["value", p.name]), p.afterLoad w) := by
    rw [Module.readItems, p.parse]
    simp only [Program.bindItems, Item.each, Item.declare, Item.evaluate, Item.callableOf,
      p.hookPlain, p.passMarked, p.hookName, p.passName, if_true, Bool.false_eq_true, if_false]
    rfl
  have hextend : m.extend (Module.fileName p.name) p.source (w.addNamespace p.name).2 =
      (.ok (.ok (p.loadedModule w, ["value", p.name])), p.afterLoad w) := by
    rw [Module.extend, show SourceText.mk _ p.source = p.text from rfl, Run.bind_ok hread]
    rfl
  rw [Module.load, Module.loadFile, Run.bind_ok hempty, Run.bind_ok hextend]
  rfl

theorem lookup_afterLoad (name : String) :
    (p.afterLoad w).lookup w.nextId name =
      if name = p.name then some (.callable (.gateway (p.loadedPass w)))
      else if name = "value" then some (.callable (.function (p.loadedHook w))) else none := by
  have hns : (p.afterLoad w).namespace? w.nextId =
      some ((({ name := p.name, maxRecursion := w.settings.maxRecursion } :
        Namespace).define "value" (.callable (.function (p.loadedHook w)))).define p.name
          (.callable (.gateway (p.loadedPass w)))) := by
    rw [afterLoad, World.define, World.namespace?_update, World.define, World.namespace?_update]
    simp [World.addNamespace, World.namespace?]
  rw [World.lookup, hns, Option.bind_some]
  by_cases hpass : name = p.name
  · rw [if_pos hpass, hpass, Namespace.get?_define_self]
  · rw [if_neg hpass, Namespace.get?_define_of_ne hpass]
    by_cases hhook : name = "value"
    · rw [if_pos hhook, hhook, Namespace.get?_define_self]
    · rw [if_neg hhook, Namespace.get?_define_of_ne hhook]
      rfl

/-- The function is the pass as it was loaded: its source is that of the core pass, its hook is bound
where it was loaded, and the length is the builtin one. -/
structure Bound (p : PassSource) (w : World) (f : Function) : Prop where
  origin : f.origin = .source p.text p.span
  definition : f.definition = p.definition
  hook : (w.lookup f.home "value").isSome
  len : w.lookup f.home "len" = none

theorem bound_afterLoad : p.Bound (p.afterLoad w) (p.loadedPass w).function where
  origin := rfl
  definition := rfl
  hook := by
    rw [show (p.loadedPass w).function.home = w.nextId from rfl, lookup_afterLoad,
      if_neg p.name_ne_value.symm]
    rfl
  len := by
    rw [show (p.loadedPass w).function.home = w.nextId from rfl, lookup_afterLoad,
      if_neg p.name_ne_len.symm]
    rfl

/-- Loading the source of a core pass gives a module whose gateway is the pass. -/
theorem exists_load :
    ∃ m v g, Module.load p.name p.source w = (.ok (.ok m), v) ∧
      m.gateway p.name v = (.ok g, v) ∧ p.Bound v g.function := by
  refine ⟨_, _, p.loadedPass w, p.load w, ?_, p.bound_afterLoad w⟩
  have hcallable : (p.loadedModule w).callable (p.afterLoad w) p.name =
      .ok (.gateway (p.loadedPass w)) := by
    rw [Module.callable, Module.get?, show (p.loadedModule w).home = w.nextId from rfl,
      lookup_afterLoad, if_pos rfl]
  rw [Module.gateway, Run.bind_apply, Run.get_apply]
  dsimp only
  rw [hcallable]
  rfl

end PassSource

end CorePasses

end Graft
