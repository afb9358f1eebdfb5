import Graft.Pass.Substitute
import Mathlib.Tactic.Common

/-!
# Bindings that a pass makes

After a binding was made, a name is looked up as it was before, unless it is the one that was bound.
Namespaces neither come nor go.
-/

namespace Graft

/-! ## Namespaces -/

namespace World

theorem namespace?_update (w : World) (id : NamespaceId) (f : Namespace → Namespace)
    (i : NamespaceId) :
    (w.update id f).namespace? i =
      if i = id then (w.namespace? i).map f else w.namespace? i := by
  rw [namespace?, namespace?, update]
  dsimp only
  induction w.namespaces with
  | nil => split <;> rfl
  | cons entry rest ih =>
      obtain ⟨j, ns⟩ := entry
      rw [List.map_cons]
      by_cases hj : j = i
      · subst hj
        by_cases hid : j = id
        · simp [hid]
        · simp [hid]
      · by_cases hid : j = id
        · rw [if_pos hid, List.find?_cons_of_neg (by simpa using hj),
            List.find?_cons_of_neg (by simpa using hj)]
          exact ih
        · rw [if_neg hid, List.find?_cons_of_neg (by simpa using hj),
            List.find?_cons_of_neg (by simpa using hj)]
          exact ih

theorem namespace?_drop (w : World) (id i : NamespaceId) :
    (w.drop id).namespace? i = if i = id then none else w.namespace? i := by
  rw [namespace?, drop, namespace?]
  dsimp only
  induction w.namespaces with
  | nil => split <;> rfl
  | cons entry rest ih =>
      rw [List.filter_cons]
      by_cases hid : entry.1 = id
      · rw [if_neg (by simpa using hid), ih]
        by_cases hi : i = id
        · rw [if_pos hi, if_pos hi]
        · rw [if_neg hi, if_neg hi, List.find?_cons_of_neg]
          simpa [hid] using Ne.symm hi
      · rw [if_pos (by simpa using hid)]
        by_cases hi : entry.1 = i
        · rw [if_neg (fun he => hid (hi.trans he)), List.find?_cons_of_pos (by simpa using hi),
            List.find?_cons_of_pos (by simpa using hi)]
        · rw [List.find?_cons_of_neg (by simpa using hi), List.find?_cons_of_neg (by simpa using hi)]
          exact ih

theorem isSome_namespace?_install (w : World) (id : NamespaceId) (name : String)
    (g : Option Global) (i : NamespaceId) :
    ((w.install id name g).namespace? i).isSome = (w.namespace? i).isSome := by
  rw [install, namespace?_update]
  split
  · rw [Option.isSome_map]
  · rfl

theorem lookup_install {w : World} {id : NamespaceId} (h : (w.namespace? id).isSome)
    (name : String) (g : Global) (i : NamespaceId) (n : String) :
    (w.install id name (some g)).lookup i n =
      if i = id ∧ n = name then some g else w.lookup i n := by
  rw [lookup, install, namespace?_update, lookup]
  by_cases hi : i = id
  · subst hi
    obtain ⟨ns, hns⟩ := Option.isSome_iff_exists.mp h
    rw [if_pos rfl, hns, Option.map_some, Option.bind_some, Option.bind_some]
    by_cases hn : n = name
    · subst hn
      rw [if_pos ⟨rfl, rfl⟩]
      exact Dictionary.get?_put_self n g ns.globals
    · rw [if_neg fun hc => hn hc.2]
      exact Dictionary.get?_put_of_ne hn g ns.globals
  · rw [if_neg hi, if_neg fun hc => hi hc.1]

end World

/-! ## Tables -/

namespace SymbolTable

variable {t : SymbolTable} {w : World} {id : NamespaceId}

theorem find?_filter_ne {β : Type} (entries : List ((NamespaceId × String) × β))
    {p q : NamespaceId × String} (h : q ≠ p) :
    ((entries.filter fun entry => entry.1 ≠ p).find? fun entry => entry.1 = q) =
      entries.find? fun entry => entry.1 = q := by
  induction entries with
  | nil => rfl
  | cons entry rest ih =>
      by_cases hp : entry.1 = p
      · have hq : entry.1 ≠ q := fun he => h (he.symm.trans hp)
        rw [List.filter_cons_of_neg (by simpa using hp),
          List.find?_cons_of_neg (by simpa using hq), ih]
      · rw [List.filter_cons_of_pos (by simpa using hp)]
        by_cases hq : entry.1 = q
        · rw [List.find?_cons_of_pos (by simpa using hq),
            List.find?_cons_of_pos (by simpa using hq)]
        · rw [List.find?_cons_of_neg (by simpa using hq),
            List.find?_cons_of_neg (by simpa using hq), ih]

theorem lookup_write_overlay (entries : List ((NamespaceId × String) × Global)) (key : String)
    (g : Global) (i : NamespaceId) (n : String) :
    ((overlay entries).write w id key (some g)).1.lookup
        ((overlay entries).write w id key (some g)).2 i n =
      if i = id ∧ n = key then some g else (overlay entries).lookup w i n := by
  dsimp only [write, lookup, held]
  by_cases hk : i = id ∧ n = key
  · obtain ⟨rfl, rfl⟩ := hk
    rw [List.find?_cons_of_pos (by simp), if_pos ⟨rfl, rfl⟩]
    rfl
  · have hne : (i, n) ≠ (id, key) := fun he => hk (Prod.mk.inj he)
    rw [List.find?_cons_of_neg (by simpa using fun a b => hk ⟨a.symm, b.symm⟩),
      find?_filter_ne entries hne, if_neg hk]

/-- A name that is written is bound to what was written, any other as before. -/
theorem lookup_write (h : (w.namespace? id).isSome) (key : String) (g : Global)
    (i : NamespaceId) (n : String) :
    (t.write w id key (some g)).1.lookup (t.write w id key (some g)).2 i n =
      if i = id ∧ n = key then some g else t.lookup w i n := by
  cases t with
  | overlay entries => exact lookup_write_overlay entries key g i n
  | shared =>
      simp only [write, lookup, held, Option.or_self, World.lookup_install h]

theorem isSome_namespace?_write (key : String) (g : Option Global) (i : NamespaceId) :
    ((t.write w id key g).2.namespace? i).isSome = (w.namespace? i).isSome := by
  cases t with
  | overlay entries => cases g <;> rfl
  | shared => exact w.isSome_namespace?_install id key g i

end SymbolTable

/-! ## Registries -/

namespace Registry

variable {r : Registry} {w : World} {id : NamespaceId}

theorem install_eq (r : Registry) (w : World) (id : NamespaceId) (key symbol : String)
    (g : Global) :
    r.install w id key symbol g =
      ({ table := (r.table.write w id key (some g)).1
         replaced :=
          if r.isRecorded id key then r.replaced
          else r.replaced ++ [⟨id, key, symbol, r.table.held w id key⟩] },
        (r.table.write w id key (some g)).2) := by
  rw [install]
  rcases r.table.write w id key (some g) with ⟨table, v⟩
  dsimp only
  split <;> rfl

/-- A key is recorded once it was bound. -/
theorem isRecorded_install (key symbol : String) (g : Global) (i : NamespaceId) (n : String) :
    (r.install w id key symbol g).1.isRecorded i n = true ↔
      (i = id ∧ n = key) ∨ r.isRecorded i n = true := by
  rw [install_eq]
  dsimp only
  by_cases h : r.isRecorded id key = true
  · rw [if_pos h]
    constructor
    · exact .inr
    · rintro (⟨rfl, rfl⟩ | hr)
      · exact h
      · exact hr
  · rw [if_neg h]
    simp only [isRecorded, List.any_append, List.any_cons, List.any_nil, Bool.or_false,
      Bool.or_eq_true, decide_eq_true_eq]
    constructor
    · rintro (hr | ⟨rfl, rfl⟩)
      · exact .inr hr
      · exact .inl ⟨rfl, rfl⟩
    · rintro (⟨rfl, rfl⟩ | hr)
      · exact .inr ⟨rfl, rfl⟩
      · exact .inl hr

end Registry

/-! ## Passes -/

namespace Pass.State

/-- What a name is bound to, as the pass sees it. -/
def lookup (s : State) (id : NamespaceId) (name : String) : Option Global :=
  s.registry.table.lookup s.world id name

/-- The state after a key was bound. -/
def install (s : State) (id : NamespaceId) (key symbol : String) (g : Global) : State :=
  { s with
    registry := (s.registry.install s.world id key symbol g).1
    world := (s.registry.install s.world id key symbol g).2 }

variable {s : State} {id : NamespaceId}

theorem lookup_install (h : (s.world.namespace? id).isSome) (key symbol : String) (g : Global)
    (i : NamespaceId) (n : String) :
    (s.install id key symbol g).lookup i n =
      if i = id ∧ n = key then some g else s.lookup i n := by
  rw [lookup, install, Registry.install_eq]
  exact SymbolTable.lookup_write h key g i n

/-- Where a key is bound, a name is bound as before unless it is the key. -/
theorem lookup_install_cases (s : State) (id : NamespaceId) (key symbol : String) (g : Global)
    (i : NamespaceId) (n : String) :
    (s.install id key symbol g).lookup i n = s.lookup i n ∨
      (i = id ∧ n = key) ∧ (s.install id key symbol g).lookup i n = some g := by
  have hcases : ∀ {o : Option Global},
      o = (if i = id ∧ n = key then some g else s.lookup i n) →
        o = s.lookup i n ∨ (i = id ∧ n = key) ∧ o = some g := by
    intro o ho
    split at ho
    · next h => exact .inr ⟨h, ho⟩
    · exact .inl ho
  cases hlive : (s.world.namespace? id).isSome with
  | true => exact hcases (State.lookup_install hlive key symbol g i n)
  | false =>
      rw [State.install, Registry.install_eq, State.lookup]
      cases htable : s.registry.table with
      | overlay entries =>
          refine hcases ?_
          rw [State.lookup, htable]
          exact SymbolTable.lookup_write_overlay entries key g i n
      | shared =>
          -- Nothing is bound in a namespace that is gone.
          have hsame : (s.world.install id key (some g)).lookup i n = s.world.lookup i n := by
            rw [World.lookup, World.lookup, World.install, World.namespace?_update]
            split
            · next hi =>
                rw [hi, Option.isSome_eq_false_iff.mp hlive |> Option.isNone_iff_eq_none.mp]
                rfl
            · rfl
          refine .inl ?_
          rw [State.lookup, htable]
          exact congrArg₂ Option.or hsame hsame

theorem isRecorded_install (key symbol : String) (g : Global) (i : NamespaceId) (n : String) :
    (s.install id key symbol g).registry.isRecorded i n = true ↔
      (i = id ∧ n = key) ∨ s.registry.isRecorded i n = true :=
  Registry.isRecorded_install key symbol g i n

theorem isSome_namespace?_install (key symbol : String) (g : Global) (i : NamespaceId) :
    ((s.install id key symbol g).world.namespace? i).isSome = (s.world.namespace? i).isSome := by
  rw [install, Registry.install_eq]
  exact SymbolTable.isSome_namespace?_write key _ i

end Pass.State

end Graft
