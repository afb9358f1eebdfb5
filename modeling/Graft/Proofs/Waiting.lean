import Graft.Pass.Substitute
import Mathlib.Data.List.Perm.Subperm

/-!
# Chains that wait

A compilation and a pass descend from a function into those that it calls, and stop when they come
to one that waits already. The functions that wait are bound to names, and no two have one number,
so there are no more of them than bindings: a descent never uses up the fuel that it starts with.
-/

namespace Graft

/-! ## Counting -/

/-- There are at most `bound` different numbers of functions in `binds`. -/
def Counts (bound : Nat) (binds : Function → Prop) : Prop :=
  ∀ ids : List Nat, ids.Nodup → (∀ i ∈ ids, ∃ f, binds f ∧ f.id = i) → ids.length ≤ bound

/-- The function, or a gateway of it, is bound to a name that a look-up finds. -/
def Finds (lookup : NamespaceId → String → Option Global) (f : Function) : Prop :=
  ∃ id name c, lookup id name = some (.callable c) ∧ c.plain? = some f

/-- The number of the function that a binding stands for. -/
def Global.functionId? : Global → Option Nat
  | .callable c => c.plain?.map Function.id
  | .constant _ => none

/-- There are no more functions than keys under which something is found. -/
theorem counts_of_keys {lookup : NamespaceId → String → Option Global}
    (keys : List (NamespaceId × String))
    (h : ∀ id name, (lookup id name).isSome → (id, name) ∈ keys) :
    Counts keys.length (Finds lookup) := by
  intro ids nodup hids
  let number (key : NamespaceId × String) : Option Nat :=
    (lookup key.1 key.2).bind Global.functionId?
  have hsub : ids ⊆ keys.filterMap number := by
    intro i hi
    obtain ⟨f, ⟨id, name, c, hl, hc⟩, rfl⟩ := hids i hi
    refine List.mem_filterMap.mpr ⟨(id, name), h id name (by rw [hl]; rfl), ?_⟩
    simp [number, hl, Global.functionId?, hc]
  exact Nat.le_trans (nodup.subperm hsub).length_le (List.length_filterMap_le _ _)

theorem Counts.mono {m n : Nat} {binds : Function → Prop} (h : Counts m binds) (hle : m ≤ n) :
    Counts n binds := fun ids nodup hids => Nat.le_trans (h ids nodup hids) hle

/-! ## Bindings of worlds -/

namespace World

/-- Every name that a namespace binds. -/
def keys (w : World) : List (NamespaceId × String) :=
  w.namespaces.flatMap fun entry => entry.2.globals.map fun g => (entry.1, g.1)

theorem length_keys (w : World) : w.keys.length = w.bindingCount := by
  rw [keys, bindingCount]
  induction w.namespaces with
  | nil => rfl
  | cons entry rest ih =>
      rw [List.flatMap_cons, List.length_append, List.length_map, List.foldr_cons, ih]

theorem mem_keys {w : World} {id : NamespaceId} {name : String} (h : (w.lookup id name).isSome) :
    (id, name) ∈ w.keys := by
  obtain ⟨g, hg⟩ := Option.isSome_iff_exists.mp h
  obtain ⟨ns, hns, hget⟩ := Option.bind_eq_some_iff.mp hg
  obtain ⟨entry, hfind, rfl⟩ := Option.map_eq_some_iff.mp hns
  have hid : entry.1 = id := by simpa using List.find?_some hfind
  have hname : ∀ l : List (String × Global), Dictionary.get? name l = some g →
      name ∈ l.map Prod.fst := by
    intro l
    induction l with
    | nil => exact fun h => nomatch h
    | cons e rest ih =>
        intro h
        rw [Dictionary.get?] at h
        split at h
        · next he => exact he ▸ List.mem_cons_self
        · exact List.mem_cons_of_mem _ (ih h)
  obtain ⟨e, he, rfl⟩ := List.mem_map.mp (hname _ hget)
  exact List.mem_flatMap.mpr
    ⟨entry, List.mem_of_find?_eq_some hfind, List.mem_map.mpr ⟨e, he, by rw [hid]⟩⟩

theorem counts (w : World) : Counts w.bindingCount (Finds w.lookup) :=
  w.length_keys ▸ counts_of_keys w.keys fun _ _ => mem_keys

end World

/-- A compilation during a pass finds no more functions than its fuel allows for. -/
theorem SymbolTable.counts (t : SymbolTable) (w : World) :
    Counts (t.linker w).bound (Finds (t.linker w).lookup) := by
  cases t with
  | shared =>
      have hlookup : (SymbolTable.shared.linker w).lookup = w.lookup := by
        funext id name
        show ((w.lookup id name).or (w.lookup id name)) = _
        cases w.lookup id name <;> rfl
      rw [hlookup]
      exact w.counts
  | overlay entries =>
      let keys := entries.map Prod.fst ++ w.keys
      have hkeys : ∀ id name, (((SymbolTable.overlay entries).linker w).lookup id name).isSome →
          (id, name) ∈ keys := by
        intro id name h
        change (((entries.find? fun entry => entry.1 = (id, name)).map Prod.snd).or
          (w.lookup id name)).isSome at h
        cases hfind : entries.find? fun entry => entry.1 = (id, name) with
        | none =>
            rw [hfind] at h
            exact List.mem_append_right _ (World.mem_keys h)
        | some entry =>
            have hkey : entry.1 = (id, name) := by simpa using List.find?_some hfind
            exact List.mem_append_left _
              (List.mem_map.mpr ⟨entry, List.mem_of_find?_eq_some hfind, hkey⟩)
      refine (counts_of_keys keys hkeys).mono (Nat.le_of_eq ?_)
      rw [List.length_append, List.length_map, w.length_keys, Nat.add_comm]
      rfl

/-! ## Descents -/

/-- The functions in `active` wait for `f`, and as many more can come to wait as there is fuel. -/
structure Waiting (bound : Nat) (binds : Function → Prop) (fuel : Nat) (active : List (Nat × String))
    (f : Function) : Prop where
  enough : bound + 1 ≤ active.length + fuel
  distinct : (active.map Prod.fst).Nodup
  /-- All but the first were found. -/
  found : ∀ i ∈ (active.map Prod.fst).tail, ∃ g, binds g ∧ g.id = i
  last : active ≠ [] → binds f

namespace Waiting

variable {bound fuel : Nat} {binds : Function → Prop} {active : List (Nat × String)}
  {f g : Function}

theorem start (bound : Nat) (binds : Function → Prop) (f : Function) :
    Waiting bound binds (bound + 1) [] f :=
  ⟨by simp, List.nodup_nil, fun i hi => by simp at hi, fun h => absurd rfl h⟩

/-- A function that is found next. -/
theorem next (h : Waiting bound binds (fuel + 1) active f)
    (hnot : ¬ (active.any fun entry => entry.1 = f.id) = true) (hg : binds g) :
    Waiting bound binds fuel (active ++ [(f.id, f.name)]) g := by
  have hnew : f.id ∉ active.map Prod.fst := by simpa using hnot
  refine ⟨?_, ?_, ?_, fun _ => hg⟩
  · have := h.enough
    simp only [List.length_append, List.length_singleton]
    omega
  · rw [List.map_append, List.nodup_append]
    refine ⟨h.distinct, by simp, fun i hi j hj => ?_⟩
    obtain rfl : j = f.id := by simpa using hj
    exact fun he => hnew (he ▸ hi)
  · intro i hi
    cases active with
    | nil => simp at hi
    | cons first rest =>
        have hi : i ∈ rest.map Prod.fst ∨ i = f.id := by simpa using hi
        rcases hi with hi | rfl
        · exact h.found i hi
        · exact ⟨f, h.last (List.cons_ne_nil _ _), rfl⟩

/-- When the fuel is used up, the function waits already. -/
theorem of_no_fuel (h : Waiting bound binds 0 active f) (counts : Counts bound binds) :
    (active.any fun entry => entry.1 = f.id) = true := by
  by_contra hnot
  have hnew : f.id ∉ active.map Prod.fst := by simpa using hnot
  cases active with
  | nil =>
      have := h.enough
      simp at this
  | cons first rest =>
      rw [List.map_cons] at hnew
      have hrest : f.id ∉ rest.map Prod.fst := fun h => hnew (List.mem_cons_of_mem _ h)
      have hnodup : (f.id :: rest.map Prod.fst).Nodup :=
        List.nodup_cons.mpr ⟨hrest, (List.nodup_cons.mp h.distinct).2⟩
      have hlength := counts _ hnodup fun i hi => by
        rcases List.mem_cons.mp hi with rfl | hi
        · exact ⟨f, h.last (List.cons_ne_nil _ _), rfl⟩
        · exact h.found i hi
      have := h.enough
      simp only [List.length_cons, List.length_map] at hlength this
      omega

end Waiting

end Graft
