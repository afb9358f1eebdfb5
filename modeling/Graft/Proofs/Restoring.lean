import Graft.Proofs.Rollback
import Mathlib.Data.List.Dedup

/-!
# Restoring

A registry remembers what its table held at the start: what a key held is recorded with its first
binding, and what was never bound is held still. So whatever was bound, and however often, restoring
counts the keys that were bound and gives back the table and the namespaces.
-/

namespace Graft

/-! ## Tables -/

namespace SymbolTable

variable {id i : NamespaceId} {key name : String}

/-- What a table holds for a name stays when another one is written. -/
theorem held_write_of_ne (t : SymbolTable) (w : World) (g : Option Global)
    (hne : (i, name) ≠ (id, key)) :
    (t.write w id key g).1.held (t.write w id key g).2 i name = t.held w i name := by
  cases t with
  | overlay entries =>
      cases g with
      | none => exact congrArg (Option.map Prod.snd) (find?_filter_ne entries hne)
      | some g =>
          dsimp only [write, held]
          rw [List.find?_cons_of_neg (by simpa using fun a b => hne (by rw [a, b])),
            find?_filter_ne entries hne]
  | shared =>
      dsimp only [write, held]
      rw [World.lookup, World.install, World.namespace?_update, World.lookup]
      by_cases hi : i = id
      · have hkey : name ≠ key := fun hk => hne (by rw [hi, hk])
        rw [if_pos hi]
        cases w.namespace? i with
        | none => rfl
        | some ns => exact Namespace.get?_install_of_ne hkey g
      · rw [if_neg hi]

theorem held_write_overlay (entries : List ((NamespaceId × String) × Global)) (w : World)
    (id : NamespaceId) (key : String) (g : Option Global) :
    ((overlay entries).write w id key g).1.held ((overlay entries).write w id key g).2 id key =
      g := by
  cases g with
  | none =>
      have hnone : ((entries.filter fun entry => entry.1 ≠ (id, key)).find?
          fun entry => entry.1 = (id, key)) = none := by
        rw [List.find?_filter]
        exact List.find?_eq_none.mpr fun entry _ => by simp
      exact congrArg (Option.map Prod.snd) hnone
  | some g =>
      dsimp only [write, held]
      rw [List.find?_cons_of_pos (by simp)]
      rfl

/-- A table of its own leaves the world alone. -/
theorem exists_write_overlay (entries : List ((NamespaceId × String) × Global)) (w : World)
    (id : NamespaceId) (key : String) (g : Option Global) :
    ∃ others, (overlay entries).write w id key g = (overlay others, w) ∧
      ((entries.map Prod.fst).Nodup → (others.map Prod.fst).Nodup) := by
  have hfilter (h : (entries.map Prod.fst).Nodup) :
      ((entries.filter fun entry => entry.1 ≠ (id, key)).map Prod.fst).Nodup :=
    h.sublist (List.filter_sublist.map _)
  cases g with
  | none => exact ⟨_, rfl, hfilter⟩
  | some g =>
      refine ⟨_, rfl, fun h => ?_⟩
      rw [List.map_cons]
      refine List.nodup_cons.mpr ⟨fun hmem => ?_, hfilter h⟩
      obtain ⟨entry, hentry, hplace⟩ := List.mem_map.mp hmem
      simp [hplace] at hentry

/-- Both tables are of one kind. If the first holds something for a place at most once, so does the
second. -/
inductive Kin : SymbolTable → SymbolTable → Prop
  | shared : Kin .shared .shared
  | overlay {entries others} :
      ((entries.map Prod.fst).Nodup → (others.map Prod.fst).Nodup) →
      Kin (.overlay entries) (.overlay others)

theorem Kin.refl (t : SymbolTable) : t.Kin t := by
  cases t with
  | overlay entries => exact .overlay id
  | shared => exact .shared

theorem Kin.write {t u : SymbolTable} (h : t.Kin u) (w : World) (id : NamespaceId) (key : String)
    (g : Option Global) : t.Kin (u.write w id key g).1 := by
  cases h with
  | shared => exact .shared
  | overlay h =>
      obtain ⟨written, hwrite, hwritten⟩ := exists_write_overlay _ w id key g
      rw [hwrite]
      exact .overlay fun hentries => hwritten (h hentries)

/-- Both tables are of one kind and hold the same. -/
inductive Same : SymbolTable → SymbolTable → Prop
  | shared : Same .shared .shared
  | overlay {entries others} :
      (∀ w id name, (overlay entries).held w id name = (overlay others).held w id name) →
      ((entries.map Prod.fst).Nodup → entries.Perm others) →
      Same (.overlay entries) (.overlay others)

/-- Tables that hold something for a place at most once hold the same entries, if they hold the
same. -/
theorem perm_of_held {entries others : List ((NamespaceId × String) × Global)} (w : World)
    (hheld : ∀ id name, (overlay entries).held w id name = (overlay others).held w id name)
    (hentries : (entries.map Prod.fst).Nodup) (hothers : (others.map Prod.fst).Nodup) :
    entries.Perm others := by
  have hmem {l : List ((NamespaceId × String) × Global)} (hl : (l.map Prod.fst).Nodup)
      (p : NamespaceId × String) (g : Global) :
      (p, g) ∈ l ↔ (overlay l).held w p.1 p.2 = some g := by
    dsimp only [held]
    constructor
    · intro hp
      cases hfind : l.find? fun entry => entry.1 = p with
      | none => exact absurd (List.find?_eq_none.mp hfind _ hp) (by simp)
      | some entry =>
          have hentry := List.mem_of_find?_eq_some hfind
          have hplace : entry.1 = p := by simpa using List.find?_some hfind
          rw [List.inj_on_of_nodup_map hl hentry hp hplace]
          rfl
    · intro hfind
      obtain ⟨entry, hentry, rfl⟩ := Option.map_eq_some_iff.mp hfind
      have hplace : entry.1 = p := by simpa using List.find?_some hentry
      rw [← hplace]
      exact List.mem_of_find?_eq_some hentry
  refine (List.perm_ext_iff_of_nodup hentries.of_map hothers.of_map).mpr fun entry => ?_
  rw [hmem hentries entry.1 entry.2, hmem hothers entry.1 entry.2, hheld]

end SymbolTable

/-! ## What is recorded -/

def Replaced.place (entry : Replaced) : NamespaceId × String := (entry.home, entry.key)

theorem Registry.isRecorded_iff {r : Registry} {id : NamespaceId} {key : String} :
    r.isRecorded id key = true ↔ (id, key) ∈ r.replaced.map Replaced.place := by
  rw [Registry.isRecorded, List.any_eq_true, List.mem_map]
  refine exists_congr fun entry => and_congr_right fun _ => ?_
  rw [decide_eq_true_eq, Replaced.place, Prod.mk.injEq]
  exact and_comm

/-- Putting back what was recorded gives back what a table of its own held for the place; elsewhere
it holds what it did. -/
theorem Registry.held_restore (entries : List ((NamespaceId × String) × Global))
    (replaced : List Replaced) (w : World) :
    ∃ others, (Registry.restore ⟨.overlay entries, replaced⟩ w).1.table = .overlay others ∧
      ((entries.map Prod.fst).Nodup → (others.map Prod.fst).Nodup) ∧
      ∀ id key, (SymbolTable.overlay others).held w id key =
        match replaced.find? fun entry => entry.place = (id, key) with
        | some entry => entry.previous
        | none => (SymbolTable.overlay entries).held w id key := by
  have h : ∀ l : List Replaced, ∃ others, l.foldr
      (fun entry (p : SymbolTable × World) =>
        p.1.write p.2 entry.home entry.key entry.previous) (SymbolTable.overlay entries, w) =
        (.overlay others, w) ∧
      ((entries.map Prod.fst).Nodup → (others.map Prod.fst).Nodup) ∧
      ∀ id key, (SymbolTable.overlay others).held w id key =
        match l.find? fun entry => entry.place = (id, key) with
        | some entry => entry.previous
        | none => (SymbolTable.overlay entries).held w id key := by
    intro l
    induction l with
    | nil => exact ⟨entries, rfl, fun h => h, fun _ _ => rfl⟩
    | cons entry rest ih =>
        obtain ⟨others, hrest, hnodup, hheld⟩ := ih
        obtain ⟨written, hwrite, hwritten⟩ :=
          SymbolTable.exists_write_overlay others w entry.home entry.key entry.previous
        refine ⟨written, by rw [List.foldr_cons, hrest, hwrite], fun h => hwritten (hnodup h),
          fun id key => ?_⟩
        by_cases hplace : entry.place = (id, key)
        · obtain ⟨rfl, rfl⟩ := Prod.mk.inj hplace
          have hself := SymbolTable.held_write_overlay others w entry.home entry.key entry.previous
          rw [hwrite] at hself
          rw [hself, List.find?_cons_of_pos (by simpa using hplace)]
        · have hother := SymbolTable.held_write_of_ne (.overlay others) w entry.previous
            (Ne.symm hplace)
          rw [hwrite] at hother
          rw [hother, hheld, List.find?_cons_of_neg (by simpa using hplace)]
  obtain ⟨others, hfold, hothers⟩ := h replaced
  exact ⟨others, congrArg Prod.fst hfold, hothers⟩

namespace Pass

/-- The registry remembers what the table held in the world `w`. -/
structure State.Remembers (table : SymbolTable) (w : World) (s : State) : Prop where
  /-- What is recorded for a key is what the table held for it. -/
  previous : ∀ entry ∈ s.registry.replaced, entry.previous = table.held w entry.home entry.key
  /-- The table holds what it held, except for keys that are recorded. -/
  held : ∀ id key, s.registry.isRecorded id key ≠ true →
    s.registry.table.held s.world id key = table.held w id key
  /-- A key is recorded once. -/
  nodup : (s.registry.replaced.map Replaced.place).Nodup
  kin : table.Kin s.registry.table

namespace State.Remembers

variable {table : SymbolTable} {w : World} {s t : State}

theorem start (table : SymbolTable) (w : World) :
    State.Remembers table w { world := w, registry := { table } } where
  previous _ h := absurd h List.not_mem_nil
  held _ _ _ := rfl
  nodup := List.nodup_nil
  kin := .refl table

theorem of_alike (h : s.Remembers table w) (ha : s.Alike t) : t.Remembers table w where
  previous := by
    rw [ha.registry]
    exact h.previous
  held id key hfree := by
    rw [ha.registry] at hfree ⊢
    rw [← h.held id key hfree]
    cases s.registry.table with
    | overlay entries => rfl
    | shared => exact World.lookup_congr ha.namespaces id key
  nodup := by
    rw [ha.registry]
    exact h.nodup
  kin := by
    rw [ha.registry]
    exact h.kin

theorem install (h : s.Remembers table w) (id : NamespaceId) (key symbol : String) (g : Global) :
    (s.install id key symbol g).Remembers table w := by
  have hheld (i : NamespaceId) (name : String)
      (hfree : (s.install id key symbol g).registry.isRecorded i name ≠ true) :
      (s.install id key symbol g).registry.table.held (s.install id key symbol g).world i name =
        table.held w i name := by
    rw [Ne, isRecorded_install, not_or] at hfree
    rw [← h.held i name hfree.2, State.install, Registry.install_eq]
    exact s.registry.table.held_write_of_ne s.world (some g) fun he => hfree.1 (Prod.mk.inj he)
  have hreplaced : (s.install id key symbol g).registry.replaced =
      if s.registry.isRecorded id key then s.registry.replaced
      else s.registry.replaced ++ [⟨id, key, symbol, s.registry.table.held s.world id key⟩] := by
    rw [State.install, Registry.install_eq]
  have hkin : table.Kin (s.install id key symbol g).registry.table := by
    rw [State.install, Registry.install_eq]
    exact h.kin.write s.world id key (some g)
  by_cases hrec : s.registry.isRecorded id key = true
  · rw [if_pos hrec] at hreplaced
    exact ⟨hreplaced ▸ h.previous, hheld, hreplaced ▸ h.nodup, hkin⟩
  · rw [if_neg hrec] at hreplaced
    refine ⟨fun entry hentry => ?_, hheld, ?_, hkin⟩
    · rw [hreplaced] at hentry
      rcases List.mem_append.mp hentry with hentry | hentry
      · exact h.previous entry hentry
      · rw [List.mem_singleton.mp hentry]
        exact h.held id key hrec
    · rw [hreplaced, List.map_append]
      refine h.nodup.append (List.nodup_singleton _) fun place hold hnew => hrec ?_
      rw [List.map_singleton, List.mem_singleton] at hnew
      rw [hnew] at hold
      exact Registry.isRecorded_iff.mpr hold

end State.Remembers

/-! ## Bindings one after another -/

/-- A binding for a registry to make. -/
structure Binding where
  home : NamespaceId
  key : String
  /-- The name at the call sites for which it is made. -/
  symbol : String
  global : Global

namespace Binding

def place (b : Binding) : NamespaceId × String := (b.home, b.key)

/-- What a key was bound to last. -/
def last? (bs : List Binding) (id : NamespaceId) (name : String) : Option Global :=
  (bs.reverse.find? fun b => b.place = (id, name)).map Binding.global

theorem last?_append (bs : List Binding) (b : Binding) (id : NamespaceId) (name : String) :
    last? (bs ++ [b]) id name =
      if b.place = (id, name) then some b.global else last? bs id name := by
  rw [last?, List.reverse_append, List.reverse_singleton, List.singleton_append, last?]
  by_cases h : b.place = (id, name)
  · rw [List.find?_cons_of_pos (by simpa using h), if_pos h]
    rfl
  · rw [List.find?_cons_of_neg (by simpa using h), if_neg h]

end Binding

/-- Makes bindings one after another. -/
def installAll (bs : List Binding) : Pass Unit :=
  bs.forM fun b => install b.home b.key b.symbol b.global

/-- The state after bindings were made one after another. -/
def State.installAll (s : State) (bs : List Binding) : State :=
  bs.foldl (fun s b => s.install b.home b.key b.symbol b.global) s

theorem installAll_apply (bs : List Binding) (s : State) :
    installAll bs s = (.ok ⟨⟩, s.installAll bs) := by
  induction bs generalizing s with
  | nil => rfl
  | cons b rest ih =>
      have hinstall : install b.home b.key b.symbol b.global s =
          (.ok ⟨⟩, s.install b.home b.key b.symbol b.global) := rfl
      exact (Run.bind_ok hinstall _).trans (ih _)

theorem State.installAll_append (s : State) (bs : List Binding) (b : Binding) :
    s.installAll (bs ++ [b]) =
      (s.installAll bs).install b.home b.key b.symbol b.global := by
  rw [installAll, List.foldl_append]
  rfl

/-- What holds at the start and of a state in which one more binding was made holds of the state
after all of them. -/
theorem State.installAll_induction {inv : State → Prop} {s : State} (hs : inv s)
    (step : ∀ t id key symbol g, inv t → inv (t.install id key symbol g)) (bs : List Binding) :
    inv (s.installAll bs) := by
  induction bs using List.reverseRecOn with
  | nil => exact hs
  | append_singleton rest b ih =>
      rw [installAll_append]
      exact step _ _ _ _ _ ih

theorem State.Remembers.installAll {table : SymbolTable} {w : World} {s : State}
    (h : s.Remembers table w) (bs : List Binding) : (s.installAll bs).Remembers table w :=
  State.installAll_induction h (fun _ id key symbol g ht => ht.install id key symbol g) bs

section

variable (table : SymbolTable) (w : World) (bs : List Binding)

theorem State.lookup_installAll (s : State) {id : NamespaceId}
    (hlive : (s.world.namespace? id).isSome) (name : String) :
    (s.installAll bs).lookup id name = (Binding.last? bs id name).or (s.lookup id name) := by
  have hstays : ∀ bs : List Binding, ((s.installAll bs).world.namespace? id).isSome :=
    @State.installAll_induction (fun t => (t.world.namespace? id).isSome) s hlive
      fun t _ key symbol g ht => by rwa [State.isSome_namespace?_install]
  induction bs using List.reverseRecOn with
  | nil => rfl
  | append_singleton rest b ih =>
      rw [State.installAll_append, Binding.last?_append]
      by_cases hplace : b.place = (id, name)
      · obtain ⟨rfl, rfl⟩ := Prod.mk.inj hplace
        rw [State.lookup_install (hstays rest), if_pos ⟨rfl, rfl⟩, if_pos hplace]
        rfl
      · rw [if_neg hplace, ← ih]
        obtain h | ⟨⟨rfl, rfl⟩, -⟩ := State.lookup_install_cases (s.installAll rest) b.home b.key
          b.symbol b.global id name
        · exact h
        · exact absurd rfl hplace

/-- A table of its own takes all bindings, none goes into the namespaces. -/
theorem State.world_installAll {entries : List ((NamespaceId × String) × Global)} {s : State}
    (h : s.registry.table = .overlay entries) : (s.installAll bs).world = s.world := by
  have hinv : (s.installAll bs).world = s.world ∧
      ∃ others, (s.installAll bs).registry.table = .overlay others := by
    refine @State.installAll_induction
      (fun t => t.world = s.world ∧ ∃ others, t.registry.table = .overlay others) s
      ⟨rfl, entries, h⟩ ?_ bs
    rintro t id key symbol g ⟨hworld, others, htable⟩
    obtain ⟨written, hwrite, -⟩ :=
      SymbolTable.exists_write_overlay others t.world id key (some g)
    rw [State.install, Registry.install_eq, htable, hwrite]
    exact ⟨hworld, written, rfl⟩
  exact hinv.1

/-- Each place that was bound is recorded once. -/
theorem length_replaced_installAll :
    (State.installAll { world := w, registry := { table } } bs).registry.replaced.length =
      (bs.map Binding.place).dedup.length := by
  have hnodup := (State.Remembers.installAll (.start table w) bs).nodup
  have hmem : ∀ place : NamespaceId × String,
      place ∈ (State.installAll { world := w, registry := { table } } bs).registry.replaced.map
        Replaced.place ↔ place ∈ bs.map Binding.place := by
    rintro ⟨id, key⟩
    rw [← Registry.isRecorded_iff]
    clear hnodup
    induction bs using List.reverseRecOn with
    | nil => simp [State.installAll, Registry.isRecorded]
    | append_singleton rest b ih =>
        rw [State.installAll_append, State.isRecorded_install, ih, List.map_append, List.mem_append,
          List.map_singleton, List.mem_singleton, Binding.place, Prod.mk.injEq]
        exact or_comm
  rw [← List.length_map Replaced.place]
  refine List.Perm.length_eq ((List.perm_ext_iff_of_nodup hnodup (List.nodup_dedup _)).mpr ?_)
  exact fun place => (hmem place).trans List.mem_dedup.symm

/-- A registry that remembers what its table held gives it back. -/
theorem State.Remembers.same_restore {table : SymbolTable} {w : World} {s : State}
    (h : s.Remembers table w) : table.Same (s.registry.restore s.world).1.table := by
  obtain ⟨hprevious, hheld, -, hkin⟩ := h
  rcases hr : s.registry with ⟨current, replaced⟩
  rw [hr] at hprevious hheld hkin
  cases hkin with
  | shared =>
      rw [Registry.restore_shared]
      exact .shared
  | @overlay entries current hnodup =>
      obtain ⟨others, hothers, hrestored, hback⟩ :=
        Registry.held_restore current replaced s.world
      rw [hothers]
      have hsame (v : World) (id : NamespaceId) (key : String) :
          (SymbolTable.overlay entries).held v id key =
            (SymbolTable.overlay others).held v id key := by
        refine Eq.trans ?_ (hback id key).symm
        cases hfind : replaced.find? fun entry => entry.place = (id, key) with
        | some entry =>
            have hplace : entry.place = (id, key) := by simpa using List.find?_some hfind
            obtain ⟨rfl, rfl⟩ := Prod.mk.inj hplace
            exact (hprevious entry (List.mem_of_find?_eq_some hfind)).symm
        | none =>
            refine (hheld id key fun hrec => ?_).symm
            obtain ⟨entry, hentry, hplace⟩ := List.mem_map.mp (Registry.isRecorded_iff.mp hrec)
            exact List.find?_eq_none.mp hfind entry hentry (by simpa using hplace)
      exact .overlay hsame fun hentries =>
        SymbolTable.perm_of_held w (hsame w) hentries (hrestored (hnodup hentries))

theorem restore_of_nil {debug : Bool} {s : State} (h : s.registry.replaced = []) :
    restore debug s = (.ok 0, s) := by
  obtain ⟨world, ⟨table, replaced⟩, matched⟩ := s
  cases h
  cases debug <;> rfl

/-- Restoring undoes any sequence of bindings. After them a name is looked up as what it was bound
to last, and as at the start if it was not bound. Restoring then counts the places that were bound,
and gives back the table, the namespaces with their generations and an empty registry, for which
there is nothing to restore. The bindings of a table of its own never go into the namespaces. -/
theorem restore_installAll (debug : Bool) :
    ∃ s t, installAll bs { world := w, registry := { table } } = (.ok ⟨⟩, s) ∧
      (∀ id, (w.namespace? id).isSome → ∀ name, lookup id name s =
        (.ok ((Binding.last? bs id name).or (table.lookup w id name)), s)) ∧
      restore debug s = (.ok (bs.map Binding.place).dedup.length, t) ∧
      (t.registry.replaced = [] ∧ table.Same t.registry.table) ∧
      (w.Same t.world ∧ t.world.generations = w.generations) ∧
      restore debug t = (.ok 0, t) ∧
      ∀ entries, table = .overlay entries → s.world = w ∧ t.world.namespaces = w.namespaces := by
  let start : State := { world := w, registry := { table } }
  have hremembers : (start.installAll bs).Remembers table w :=
    State.Remembers.installAll (.start table w) bs
  have hundoes : (start.installAll bs).Undoes w :=
    State.installAll_induction (State.Undoes.start w table)
      (fun _ id key symbol g ht => ht.install id key symbol g) bs
  obtain ⟨t, ht, hregistry, hnamespaces, hsettings⟩ := restore_apply debug (start.installAll bs)
  have hempty : t.registry.replaced = [] := by
    rw [hregistry]
    rfl
  have hsame : w.Same t.world := hundoes.restore.symm.touch hnamespaces hsettings
  refine ⟨start.installAll bs, t, installAll_apply bs start, fun id hlive name => ?_, ?_,
    ⟨hempty, ?_⟩, ⟨hsame, ?_⟩, restore_of_nil hempty, ?_⟩
  · have hlookup := State.lookup_installAll bs start hlive name
    exact congrArg (fun found => (Except.ok found, start.installAll bs)) hlookup
  · rw [ht, length_replaced_installAll]
  · rw [hregistry]
    exact hremembers.same_restore
  · funext id
    rw [World.generations, World.generations, hsame.spaces]
  · rintro entries rfl
    have hworld : (start.installAll bs).world = w := State.world_installAll bs rfl
    refine ⟨hworld, hnamespaces.trans ?_⟩
    have hkin := hremembers.kin
    rcases hr : (start.installAll bs).registry with ⟨current, replaced⟩
    rw [hr] at hkin
    cases hkin
    dsimp only
    rw [Registry.restore_overlay, hworld]

end

/-- One key is bound twice and another one once. -/
def thriceBound : List Binding :=
  [⟨1, "g", "g", .constant (.bool true)⟩, ⟨1, "h", "h", .constant (.bool true)⟩,
    ⟨1, "g", "g", .constant (.bool false)⟩]

theorem restore_installAll_thrice :
    ∃ s t, installAll thriceBound
        { world := { namespaces := [(1, { name := "m" })] }, registry := { table := .shared } } =
        (.ok ⟨⟩, s) ∧
      lookup 1 "g" s = (.ok (some (.constant (.bool false))), s) ∧
      restore false s = (.ok 2, t) ∧ restore false t = (.ok 0, t) := by
  obtain ⟨s, t, hs, hlookup, hrestore, -, -, hagain, -⟩ := restore_installAll .shared
    { namespaces := [(1, { name := "m" })] } thriceBound false
  exact ⟨s, t, hs, hlookup 1 rfl "g", hrestore, hagain⟩

end Pass

end Graft
