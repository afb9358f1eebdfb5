import Graft.Proofs.Passes
import Mathlib.Data.List.Induction

/-!
# Undoing bindings

Whatever a pass bound, putting back what the registry recorded leaves every namespace as it was: the
bindings and their order, the name, the generation. The first binding of a key is the one recorded,
so a later one to the same key makes no difference for what comes back.
-/

namespace Graft

/-! ## Dictionaries -/

namespace Dictionary

variable {α : Type} {name other : String} {d : List (String × α)}

theorem put_put (name : String) (a b : α) (d : List (String × α)) :
    put name a (put name b d) = put name a d := by
  induction d with
  | nil => simp [put]
  | cons entry rest ih =>
      obtain ⟨n, c⟩ := entry
      by_cases h : n = name
      · simp [put, h]
      · simp [put, h, ih]

theorem put_of_get? {a : α} (h : get? name d = some a) : put name a d = d := by
  induction d with
  | nil => cases h
  | cons entry rest ih =>
      obtain ⟨n, c⟩ := entry
      rw [get?] at h
      by_cases hn : n = name
      · rw [if_pos hn] at h
        rw [put, if_pos hn, Option.some.inj h]
      · rw [if_neg hn] at h
        rw [put, if_neg hn, ih h]

theorem erase_put (name : String) (a : α) (d : List (String × α)) :
    erase name (put name a d) = erase name d := by
  induction d with
  | nil => simp [erase, put]
  | cons entry rest ih =>
      obtain ⟨n, c⟩ := entry
      by_cases h : n = name
      · simp [erase, put, h]
      · simpa [erase, put, h] using ih

theorem erase_of_get? (h : get? name d = none) : erase name d = d := by
  induction d with
  | nil => rfl
  | cons entry rest ih =>
      obtain ⟨n, c⟩ := entry
      rw [get?] at h
      by_cases hn : n = name
      · rw [if_pos hn] at h
        cases h
      · rw [if_neg hn] at h
        have := ih h
        rw [erase] at this ⊢
        rw [List.filter_cons_of_pos (by simpa using hn), this]

/-- A name that is there is put where it stands, so putting another one commutes with it. -/
theorem put_put_comm (hne : name ≠ other) (h : (get? name d).isSome) (a b : α) :
    put name a (put other b d) = put other b (put name a d) := by
  induction d with
  | nil => cases h
  | cons entry rest ih =>
      obtain ⟨n, c⟩ := entry
      by_cases hn : n = name
      · subst hn
        simp [put, hne]
      · rw [get?, if_neg hn] at h
        by_cases ho : n = other
        · subst ho
          simp [put, hn]
        · simp [put, hn, ho, ih h]

theorem put_erase_comm (hne : name ≠ other) (a : α) (d : List (String × α)) :
    put name a (erase other d) = erase other (put name a d) := by
  induction d with
  | nil => simp [erase, put, hne]
  | cons entry rest ih =>
      obtain ⟨n, c⟩ := entry
      by_cases ho : n = other
      · subst ho
        simpa [erase, put, Ne.symm hne] using ih
      · by_cases hn : n = name
        · subst hn
          simp [erase, put, ho]
        · simpa [erase, put, hn, ho] using ih

end Dictionary

/-! ## Namespaces -/

namespace Namespace

variable {key other : String} {ns : Namespace}

theorem install_install (key : String) (a : Global) (b : Option Global) (ns : Namespace) :
    (ns.install key (some a)).install key b = ns.install key b := by
  cases b with
  | some b => rw [install, install, Dictionary.put_put, install]
  | none => rw [install, install, Dictionary.erase_put, install]

theorem install_get? (key : String) (ns : Namespace) : ns.install key (ns.get? key) = ns := by
  cases h : ns.get? key with
  | some a => rw [install, Dictionary.put_of_get? h]
  | none => rw [install, Dictionary.erase_of_get? h]

theorem install_comm (hne : key ≠ other) (h : (ns.get? key).isSome) (a : Global)
    (b : Option Global) :
    (ns.install other b).install key (some a) = (ns.install key (some a)).install other b := by
  cases b with
  | some b => simp only [install, Dictionary.put_put_comm hne h]
  | none => simp only [install, Dictionary.put_erase_comm hne]

theorem get?_install_of_ne (hne : key ≠ other) (b : Option Global) :
    (ns.install other b).get? key = ns.get? key := by
  cases b with
  | some b => exact Dictionary.get?_put_of_ne hne b ns.globals
  | none => exact Dictionary.get?_erase_of_ne hne ns.globals

end Namespace

/-! ## Worlds -/

namespace World

/-- Both worlds have the same namespaces, and the same settings. -/
structure Same (w w' : World) : Prop where
  spaces : ∀ i, w.namespace? i = w'.namespace? i
  ids : w.namespaces.map Prod.fst = w'.namespaces.map Prod.fst
  settings : w.settings = w'.settings

theorem ids_update (w : World) (id : NamespaceId) (f : Namespace → Namespace) :
    (w.update id f).namespaces.map Prod.fst = w.namespaces.map Prod.fst := by
  rw [update, List.map_map]
  refine List.map_congr_left fun entry _ => ?_
  obtain ⟨i, ns⟩ := entry
  rw [Function.comp_apply]
  dsimp only
  split <;> rfl

namespace Same

variable {w w' w'' : World}

theorem refl (w : World) : w.Same w := ⟨fun _ => rfl, rfl, rfl⟩

theorem symm (h : w.Same w') : w'.Same w :=
  ⟨fun i => (h.spaces i).symm, h.ids.symm, h.settings.symm⟩

theorem trans (h : w.Same w') (h' : w'.Same w'') : w.Same w'' :=
  ⟨fun i => (h.spaces i).trans (h'.spaces i), h.ids.trans h'.ids,
    h.settings.trans h'.settings⟩

theorem lookup (h : w.Same w') (id : NamespaceId) (name : String) :
    w.lookup id name = w'.lookup id name := by
  rw [World.lookup, World.lookup, h.spaces id]

theorem install (h : w.Same w') (id : NamespaceId) (key : String) (g : Option Global) :
    (w.install id key g).Same (w'.install id key g) := by
  refine ⟨fun i => ?_, ?_, h.settings⟩
  · rw [World.install, World.install, namespace?_update, namespace?_update, h.spaces i]
  · rw [World.install, World.install, ids_update, ids_update, h.ids]

/-- If no two namespaces have one number, they are the same one by one. -/
theorem namespaces_eq (h : w.Same w') (distinct : (w.namespaces.map Prod.fst).Nodup) :
    w.namespaces = w'.namespaces := by
  obtain ⟨hget, hids, -⟩ := h
  simp only [namespace?] at hget
  revert hget hids distinct
  generalize w.namespaces = l
  generalize w'.namespaces = l'
  induction l generalizing l' with
  | nil =>
      intro _ _ hids
      exact (List.map_eq_nil_iff.mp hids.symm).symm
  | cons entry rest ih =>
      intro distinct hget hids
      cases l' with
      | nil => cases hids
      | cons entry' rest' =>
          obtain ⟨id, ns⟩ := entry
          obtain ⟨id', ns'⟩ := entry'
          simp only [List.map_cons, List.cons.injEq] at hids
          obtain ⟨rfl, hids⟩ := hids
          obtain ⟨hnot, distinct⟩ := List.nodup_cons.mp distinct
          have hns : ns = ns' := by simpa using hget id
          subst hns
          refine congrArg ((id, ns) :: ·) (ih rest' distinct (fun i => ?_) hids)
          by_cases hi : id = i
          · subst hi
            have hnone : ∀ l : List (NamespaceId × Namespace), id ∉ l.map Prod.fst →
                (l.find? fun entry => entry.1 = id) = none :=
              fun l hl => List.find?_eq_none.mpr fun x hx => by
                simpa using fun he => hl (List.mem_map.mpr ⟨x, hx, he⟩)
            rw [hnone rest hnot, hnone rest' (hids ▸ hnot)]
          · simpa [hi] using hget i

end Same

variable {w : World} {id home : NamespaceId} {key other : String}

theorem install_install (w : World) (id : NamespaceId) (key : String) (a : Global)
    (b : Option Global) :
    ((w.install id key (some a)).install id key b).Same (w.install id key b) := by
  refine ⟨fun i => ?_, by simp only [install, ids_update], rfl⟩
  rw [install, install, install, namespace?_update, namespace?_update, namespace?_update]
  by_cases hi : i = id
  · simp only [if_pos hi, Option.map_map]
    congr 1
    funext ns
    exact ns.install_install key a b
  · simp only [if_neg hi]

theorem install_lookup (w : World) (id : NamespaceId) (key : String) :
    (w.install id key (w.lookup id key)).Same w := by
  refine ⟨fun i => ?_, by rw [install, ids_update], rfl⟩
  rw [install, namespace?_update, lookup]
  by_cases hi : i = id
  · subst hi
    rw [if_pos rfl]
    cases w.namespace? i with
    | none => rfl
    | some ns => exact congrArg some (ns.install_get? key)
  · rw [if_neg hi]

/-- If the namespace is there, it binds the key. -/
def Bound (w : World) (id : NamespaceId) (key : String) : Prop :=
  ∀ ns, w.namespace? id = some ns → (ns.get? key).isSome

theorem install_comm (hne : ¬ (home = id ∧ other = key)) (h : w.Bound id key) (a : Global)
    (b : Option Global) :
    ((w.install id key (some a)).install home other b).Same
      ((w.install home other b).install id key (some a)) := by
  refine ⟨fun i => ?_, by simp only [install, ids_update], rfl⟩
  simp only [install, namespace?_update]
  by_cases hi : i = id
  · by_cases hh : i = home
    · have hkey : key ≠ other := fun hk => hne ⟨hh.symm.trans hi, hk.symm⟩
      rw [if_pos hh, if_pos hi, if_pos hi, if_pos hh]
      cases hns : w.namespace? i with
      | none => rfl
      | some ns => exact congrArg some (Namespace.install_comm hkey (h ns (hi ▸ hns)) a b).symm
    · rw [if_neg hh, if_pos hi, if_pos hi, if_neg hh]
  · by_cases hh : i = home
    · rw [if_pos hh, if_neg hi, if_neg hi, if_pos hh]
    · rw [if_neg hh, if_neg hi, if_neg hi, if_neg hh]

theorem bound_install (w : World) (id : NamespaceId) (key : String) (a : Global) :
    (w.install id key (some a)).Bound id key := by
  intro ns hns
  rw [install, namespace?_update, if_pos rfl] at hns
  obtain ⟨ns', -, rfl⟩ := Option.map_eq_some_iff.mp hns
  exact Option.isSome_of_eq_some (Dictionary.get?_put_self key a ns'.globals)

theorem Bound.install_of_ne (hne : ¬ (home = id ∧ other = key)) (h : w.Bound id key)
    (b : Option Global) : (w.install home other b).Bound id key := by
  intro ns hns
  rw [World.install, namespace?_update] at hns
  by_cases hid : id = home
  · rw [if_pos hid] at hns
    obtain ⟨ns', hns', rfl⟩ := Option.map_eq_some_iff.mp hns
    rw [Namespace.get?_install_of_ne fun hk => hne ⟨hid.symm, hk.symm⟩]
    exact h ns' hns'
  · rw [if_neg hid] at hns
    exact h ns hns

theorem Bound.install (h : w.Bound id key) (home : NamespaceId) (other : String) (a : Global) :
    (w.install home other (some a)).Bound id key := by
  by_cases he : home = id ∧ other = key
  · obtain ⟨rfl, rfl⟩ := he
    exact bound_install w home other a
  · exact h.install_of_ne he (some a)

/-! ## Undoing -/

/-- Puts back what was recorded, the latest first. -/
def undo (replaced : List Replaced) (w : World) : World :=
  replaced.foldr (fun entry w => w.install entry.home entry.key entry.previous) w

theorem undo_append (replaced : List Replaced) (entry : Replaced) (w : World) :
    w.undo (replaced ++ [entry]) =
      (w.install entry.home entry.key entry.previous).undo replaced := by
  rw [undo, List.foldr_append, undo]
  rfl

theorem Same.undo {w w' : World} (h : w.Same w') (replaced : List Replaced) :
    (w.undo replaced).Same (w'.undo replaced) := by
  induction replaced with
  | nil => exact h
  | cons entry rest ih => exact ih.install entry.home entry.key entry.previous

/-- What a recorded key was bound to last makes no difference. -/
theorem undo_install {replaced : List Replaced}
    (hrecorded : ∃ entry ∈ replaced, entry.home = id ∧ entry.key = key) (h : w.Bound id key)
    (g : Global) : ((w.install id key (some g)).undo replaced).Same (w.undo replaced) := by
  induction replaced using List.reverseRecOn generalizing w with
  | nil => exact absurd hrecorded (by simp)
  | append_singleton rest entry ih =>
      rw [undo_append, undo_append]
      by_cases he : entry.home = id ∧ entry.key = key
      · obtain ⟨rfl, rfl⟩ := he
        exact (w.install_install _ _ g entry.previous).undo rest
      · have hrest : ∃ entry ∈ rest, entry.home = id ∧ entry.key = key := by
          obtain ⟨e, hmem, hkey⟩ := hrecorded
          rcases List.mem_append.mp hmem with hmem | hmem
          · exact ⟨e, hmem, hkey⟩
          · exact absurd (List.mem_singleton.mp hmem ▸ hkey) he
        exact ((install_comm he h g entry.previous).undo rest).trans
          (ih hrest (h.install_of_ne he entry.previous))

end World

/-- Putting back what a registry recorded undoes it in the world, if the world holds the table. -/
theorem Registry.restore_shared (replaced : List Replaced) (w : World) :
    Registry.restore ⟨.shared, replaced⟩ w = (⟨.shared, []⟩, w.undo replaced) := by
  have h : ∀ l : List Replaced, l.foldr
      (fun entry (p : SymbolTable × World) =>
        p.1.write p.2 entry.home entry.key entry.previous) (SymbolTable.shared, w) =
      (.shared, w.undo l) := by
    intro l
    induction l with
    | nil => rfl
    | cons entry rest ih =>
        rw [List.foldr_cons, ih]
        rfl
  rw [Registry.restore]
  exact congrArg (fun p : SymbolTable × World => ((⟨p.1, []⟩ : Registry), p.2)) (h replaced)

/-- A table of its own leaves the world alone. -/
theorem Registry.restore_overlay (entries : List ((NamespaceId × String) × Global))
    (replaced : List Replaced) (w : World) :
    (Registry.restore ⟨.overlay entries, replaced⟩ w).2 = w := by
  have h : ∀ l : List Replaced, ∃ others, l.foldr
      (fun entry (p : SymbolTable × World) =>
        p.1.write p.2 entry.home entry.key entry.previous) (SymbolTable.overlay entries, w) =
      (.overlay others, w) := by
    intro l
    induction l with
    | nil => exact ⟨entries, rfl⟩
    | cons entry rest ih =>
        obtain ⟨others, ih⟩ := ih
        rw [List.foldr_cons, ih]
        cases entry.previous with
        | none => exact ⟨_, rfl⟩
        | some g => exact ⟨_, rfl⟩
  obtain ⟨others, h⟩ := h replaced
  exact congrArg Prod.snd h

/-! ## Passes -/

namespace Pass

/-- Undoing what the pass bound gives the namespaces of the world `w`. -/
def State.Undoes (w : World) (s : State) : Prop :=
  match s.registry.table with
  | .overlay _ => s.world.Same w
  | .shared => (s.world.undo s.registry.replaced).Same w ∧
      ∀ entry ∈ s.registry.replaced, s.world.Bound entry.home entry.key

namespace State.Undoes

variable {w : World} {s t : State}

theorem start (w : World) (table : SymbolTable) :
    State.Undoes w { world := w, registry := { table } } := by
  cases table with
  | overlay entries => exact .refl w
  | shared => exact ⟨.refl w, fun entry h => absurd h List.not_mem_nil⟩

theorem of_alike (h : s.Undoes w) (ha : s.Alike t) : t.Undoes w := by
  have hsame : t.world.Same s.world :=
    ⟨ha.namespace?, congrArg (List.map Prod.fst) ha.namespaces, ha.settings⟩
  rw [State.Undoes] at h ⊢
  rw [ha.registry]
  split
  · next entries htable =>
      rw [htable] at h
      exact hsame.trans h
  · next htable =>
      rw [htable] at h
      refine ⟨(hsame.undo _).trans h.1, fun entry hentry ns hns => ?_⟩
      rw [hsame.spaces] at hns
      exact h.2 entry hentry ns hns

theorem install (h : s.Undoes w) (id : NamespaceId) (key symbol : String) (g : Global) :
    (s.install id key symbol g).Undoes w := by
  rw [State.Undoes] at h
  rw [State.install, Registry.install_eq, State.Undoes]
  cases htable : s.registry.table with
  | overlay entries =>
      rw [htable] at h
      exact h
  | shared =>
      rw [htable] at h
      obtain ⟨hundo, hbound⟩ := h
      dsimp only [SymbolTable.write, SymbolTable.held]
      by_cases hrec : s.registry.isRecorded id key = true
      · rw [if_pos hrec]
        obtain ⟨entry, hmem, hkey⟩ := List.any_eq_true.mp hrec
        obtain ⟨rfl, rfl⟩ : entry.key = key ∧ entry.home = id := of_decide_eq_true hkey
        exact ⟨(World.undo_install ⟨entry, hmem, rfl, rfl⟩ (hbound entry hmem) g).trans hundo,
          fun e he => (hbound e he).install entry.home entry.key g⟩
      · rw [if_neg hrec, World.undo_append]
        refine ⟨?_, fun entry hentry => ?_⟩
        · exact (((World.install_install _ id key g _).trans
            (World.install_lookup _ id key)).undo _).trans hundo
        · rcases List.mem_append.mp hentry with hentry | hentry
          · exact (hbound entry hentry).install id key g
          · rw [List.mem_singleton.mp hentry]
            exact World.bound_install _ id key g

/-- Restoring gives back the namespaces. -/
theorem restore (h : s.Undoes w) : (s.registry.restore s.world).2.Same w := by
  rw [State.Undoes] at h
  rcases hr : s.registry with ⟨table, replaced⟩
  rw [hr] at h
  cases table with
  | overlay entries =>
      rw [Registry.restore_overlay]
      exact h
  | shared =>
      rw [Registry.restore_shared]
      exact h.1

end State.Undoes

end Pass

end Graft
