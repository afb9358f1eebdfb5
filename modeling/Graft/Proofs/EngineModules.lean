import Graft.Module
import Graft.Proofs.EngineCalls

/-!
# Modules on engines with and without a cache

Definitions, removals, new namespaces and the end of namespaces keep two engines alike. What changes a
binding is counted, so what the first engine keeps is still known to be of the time before. Reading a
text makes functions of new numbers, evaluates constants, and binds names; it goes the same way on both
sides.
-/

namespace Graft

open Correspondence (keeping)

variable {ρ σ τ : Renumbering} {streams : List KeyStream} {L M : Ledger} {v v' w w' : World}

/-! ## Changes of namespaces -/

/-- The same names are bound to twins, and calls may be nested equally deep. -/
structure Namespace.Twin (ρ : Renumbering) (ns ns' : Namespace) : Prop where
  get? : ∀ name, Option.Rel (Global.Twin ρ) (ns.get? name) (ns'.get? name)
  limit : ns.maxRecursion = ns'.maxRecursion

theorem Namespace.Twin.mono {ns ns' : Namespace} (h : ns.Twin ρ ns') (hle : ρ ≤ σ) :
    ns.Twin σ ns' := by
  refine ⟨fun name => ?_, h.limit⟩
  have hget := h.get? name
  generalize ns.get? name = g at hget ⊢
  generalize ns'.get? name = g' at hget ⊢
  cases hget with
  | none => exact .none
  | some hg => exact .some (hg.mono hle)

/-- Bindings that are twins and known on the first side. -/
structure Global.Given (ρ : Renumbering) (L : Ledger) (g g' : Global) : Prop where
  twin : g.Twin ρ g'
  known : ∀ c, g = .callable c → c.Known L

namespace Engine

theorem spaces (h : Engine ρ streams L w w') {i i' : NamespaceId} (hi : ρ.homes i i') :
    Option.Rel (Namespace.Twin ρ) (w.namespace? i) (w'.namespace? i') := by
  have hlimit := h.limit hi
  have hlookup := h.twin.lookup hi
  simp only [World.lookup] at hlookup
  generalize w.namespace? i = n at hlimit hlookup ⊢
  generalize w'.namespace? i' = n' at hlimit hlookup ⊢
  cases hlimit with
  | none => exact .none
  | some heq => exact .some ⟨hlookup, heq⟩

/-- Engines after a change that the books of the first one have. -/
theorem change (h : Engine ρ streams L w w') (hle : L ≤ M) (before : w.Before v)
    (entries : v.cache.entries ⊆ w.cache.entries) (settings : v.settings = w.settings)
    (settings' : v'.settings = w'.settings) (books : M.Books v)
    (taken : ∀ {m m'}, σ.functions m m' → m < v.nextId ∧ m' < v'.nextId)
    (placed : ∀ {i i'}, σ.homes i i' → i < v.nextId ∧ i' < v'.nextId)
    (spaces : ∀ {i i'}, σ.homes i i' →
      Option.Rel (Namespace.Twin σ) (v.namespace? i) (v'.namespace? i')) :
    Engine σ streams M v v' where
  twin := by
    refine ⟨fun hi => ?_, fun hi name => ?_, taken, placed, ?_, Nat.le_refl _, rfl⟩
    · have hspaces := spaces hi
      generalize v.namespace? _ = n at hspaces ⊢
      generalize v'.namespace? _ = n' at hspaces ⊢
      cases hspaces <;> rfl
    · have hspaces := spaces hi
      rw [World.lookup, World.lookup]
      generalize v.namespace? _ = n at hspaces ⊢
      generalize v'.namespace? _ = n' at hspaces ⊢
      cases hspaces with
      | none => exact .none
      | some hns => exact hns.get? name
    · rw [settings, settings']
      exact h.twin.strict
  limit hi := by
    have hspaces := spaces hi
    generalize v.namespace? _ = n at hspaces ⊢
    generalize v'.namespace? _ = n' at hspaces ⊢
    cases hspaces with
    | none => exact .none
    | some hns => exact .some hns.limit
  maxRecursion := by
    rw [settings, settings']
    exact h.maxRecursion
  uncached := by
    rw [settings']
    exact h.uncached
  books := books
  kept entry he := by
    obtain ⟨ha, m, hm⟩ := h.kept entry (entries he)
    exact ⟨hle.artifacts ha, m, hm.mono hle before⟩

variable {id id' : NamespaceId}

/-- One namespace is changed on each side, and what changed a binding is counted. -/
theorem update (h : Engine ρ streams L w w') (hid : ρ.homes id id') {F F' : Namespace → Namespace}
    (twins : ∀ {ns ns'}, ns.Twin ρ ns' → (F ns).Twin ρ (F' ns'))
    (counted : ∀ ns, ns.generation ≤ (F ns).generation ∧
      (ns.generation = (F ns).generation → ns.globals = (F ns).globals))
    (known : ∀ ns name c, (F ns).get? name = some (.callable c) →
      ns.get? name = some (.callable c) ∨ c.Known L) :
    Engine ρ streams L (w.update id F) (w'.update id' F') := by
  have hsome : ∀ i, ((w.update id F).namespace? i).isSome = (w.namespace? i).isSome := by
    intro i
    rw [World.namespace?_update]
    split
    · exact Option.isSome_map
    · rfl
  refine h.change (Ledger.le_refl L) ?_ (fun _ he => he) rfl rfl ?_ h.twin.taken h.twin.placed ?_
  · refine ⟨Nat.le_refl _, rfl, h.books.namespaces, fun _ hi => ?_, fun {i ns ns'} hns hns' => ?_⟩
    · rw [World.namespace?_update, hi]
      split <;> rfl
    · rw [World.namespace?_update, hns] at hns'
      split at hns'
      · obtain rfl := Option.some.inj hns'
        exact counted ns
      · obtain rfl := Option.some.inj hns'
        exact ⟨Nat.le_refl _, fun _ => rfl⟩
  · refine ⟨h.books.functions, h.books.artifacts, fun hi => h.books.namespaces (by rwa [← hsome]), ?_⟩
    intro i name c hl
    rw [World.lookup, World.namespace?_update] at hl
    -- a binding is one that was there or one that the change made
    have hold : w.lookup i name = some (.callable c) ∨ c.Known L := by
      rw [World.lookup]
      cases hns : w.namespace? i with
      | none =>
          rw [hns] at hl
          split at hl <;> cases hl
      | some ns =>
          rw [hns] at hl
          split at hl
          · exact known ns name c hl
          · exact .inl hl
    exact hold.elim h.books.bound fun hc => hc
  · intro i i' hi
    rw [World.namespace?_update, World.namespace?_update]
    have hspaces := h.spaces hi
    by_cases hii : i = id
    · rw [if_pos hii, if_pos ((ρ.homes_iff hi hid).mp hii)]
      generalize w.namespace? i = n at hspaces ⊢
      generalize w'.namespace? i' = n' at hspaces ⊢
      cases hspaces with
      | none => exact .none
      | some hns => exact .some (twins hns)
    · rw [if_neg hii, if_neg (mt (ρ.homes_iff hi hid).mpr hii)]
      exact hspaces

theorem define (h : Engine ρ streams L w w') (hid : ρ.homes id id') (name : String) {g g' : Global}
    (hg : g.Given ρ L g') : Engine ρ streams L (w.define id name g) (w'.define id' name g') := by
  refine h.update hid (fun hns => ⟨fun n => ?_, hns.limit⟩) (fun ns => ⟨Nat.le_succ _, fun he => ?_⟩)
    fun ns n c hc => ?_
  · by_cases hn : n = name
    · rw [hn, Namespace.get?_define_self, Namespace.get?_define_self]
      exact .some hg.twin
    · rw [Namespace.get?_define_of_ne hn, Namespace.get?_define_of_ne hn]
      exact hns.get? n
  · exact absurd he (Nat.ne_of_lt (Nat.lt_succ_self _))
  · by_cases hn : n = name
    · rw [hn, Namespace.get?_define_self] at hc
      exact .inr (hg.known c (Option.some.inj hc))
    · rw [Namespace.get?_define_of_ne hn] at hc
      exact .inl hc

theorem remove (h : Engine ρ streams L w w') (hid : ρ.homes id id') (name : String) :
    Engine ρ streams L (w.remove id name) (w'.remove id' name) := by
  have hget : ∀ (ns : Namespace) n, (ns.remove name).get? n = if n = name then none else ns.get? n := by
    intro ns n
    rw [Namespace.remove]
    split
    · rw [Namespace.get?]
      by_cases hn : n = name
      · rw [if_pos hn, hn]
        exact Dictionary.get?_erase_self _ _
      · rw [if_neg hn]
        exact Dictionary.get?_erase_of_ne hn _
    · next hnone =>
        by_cases hn : n = name
        · rw [if_pos hn, hn]
          simpa using hnone
        · rw [if_neg hn]
  refine h.update hid (fun {ns ns'} hns => ⟨fun n => ?_, ?_⟩) (fun ns => ?_) fun ns n c hc => ?_
  · rw [hget, hget]
    split
    · exact .none
    · exact hns.get? n
  · have hlimit : ∀ ns : Namespace, (ns.remove name).maxRecursion = ns.maxRecursion := by
      intro ns
      rw [Namespace.remove]
      split <;> rfl
    rw [hlimit, hlimit]
    exact hns.limit
  · rw [Namespace.remove]
    split
    · exact ⟨Nat.le_succ _, fun he => absurd he (Nat.ne_of_lt (Nat.lt_succ_self _))⟩
    · exact ⟨Nat.le_refl _, fun _ => rfl⟩
  · rw [hget] at hc
    split at hc
    · cases hc
    · exact .inl hc

theorem limitRecursion (h : Engine ρ streams L w w') (hid : ρ.homes id id') (limit : Nat) :
    Engine ρ streams L (w.update id fun ns => { ns with maxRecursion := limit })
      (w'.update id' fun ns => { ns with maxRecursion := limit }) :=
  h.update hid (fun hns => ⟨hns.get?, rfl⟩) (fun _ => ⟨Nat.le_refl _, fun _ => rfl⟩)
    fun _ _ _ hc => .inl hc

theorem drop (h : Engine ρ streams L w w') (hid : ρ.homes id id') :
    Engine ρ streams L (w.drop id) (w'.drop id') := by
  have hold : ∀ {i ns}, (w.drop id).namespace? i = some ns → w.namespace? i = some ns := by
    intro i ns hns
    rw [World.namespace?_drop] at hns
    split at hns
    · cases hns
    · exact hns
  refine h.change (Ledger.le_refl L) ?_ (fun _ he => he) rfl rfl ?_ h.twin.taken h.twin.placed ?_
  · refine ⟨Nat.le_refl _, rfl, h.books.namespaces, fun _ hi => ?_, fun {i ns ns'} hns hns' => ?_⟩
    · rw [World.namespace?_drop, hi, ite_self]
    · rw [hold hns'] at hns
      obtain rfl := Option.some.inj hns
      exact ⟨Nat.le_refl _, fun _ => rfl⟩
  · refine ⟨h.books.functions, h.books.artifacts, fun hi => ?_, fun {i name c} hl => ?_⟩
    · obtain ⟨ns, hns⟩ := Option.isSome_iff_exists.mp hi
      exact h.books.namespaces (by rw [hold hns]; rfl)
    · obtain ⟨ns, hns, hget⟩ := Option.bind_eq_some_iff.mp hl
      exact h.books.bound (Option.bind_eq_some_iff.mpr ⟨ns, hold hns, hget⟩)
  · intro i i' hi
    rw [World.namespace?_drop, World.namespace?_drop]
    by_cases hii : i = id
    · rw [if_pos hii, if_pos ((ρ.homes_iff hi hid).mp hii)]
      exact .none
    · rw [if_neg hii, if_neg (mt (ρ.homes_iff hi hid).mpr hii)]
      exact h.spaces hi

/-! ## New numbers -/

/-- A new namespace on each side. -/
theorem addNamespace (h : Engine ρ streams L w w') (name : String) :
    ∃ σ, ρ ≤ σ ∧ σ.homes (w.addNamespace name).1 (w'.addNamespace name).1 ∧
      Engine σ streams L (w.addNamespace name).2 (w'.addNamespace name).2 := by
  -- the two new numbers are paired with one another
  have fresh : ρ.FreshHome w.nextId w'.nextId := fun i i' hi =>
    ⟨Nat.ne_of_lt (h.twin.placed hi).1, Nat.ne_of_lt (h.twin.placed hi).2⟩
  have hle := Renumbering.le_withHome fresh
  have hget : ∀ (v : World) i, (v.addNamespace name).2.namespace? i =
      if i = v.nextId then some { name, maxRecursion := v.settings.maxRecursion }
      else v.namespace? i := by
    intro v i
    by_cases hi : v.nextId = i
    · rw [if_pos hi.symm, World.namespace?, World.addNamespace,
        List.find?_cons_of_pos (by simpa using hi)]
      rfl
    · rw [if_neg (Ne.symm hi), World.namespace?, World.addNamespace,
        List.find?_cons_of_neg (by simpa using hi)]
      rfl
  have hold : ∀ {i ns}, w.namespace? i = some ns → i ≠ w.nextId := fun hns =>
    Nat.ne_of_lt (h.books.namespaces (by rw [hns]; rfl))
  refine ⟨ρ.withHome fresh, hle, .inl ⟨rfl, rfl⟩, ?_⟩
  refine h.change (Ledger.le_refl L) ?_ (fun _ he => he) rfl rfl ?_ (fun hm => ?_) (fun hi => ?_) ?_
  · refine ⟨Nat.le_succ _, rfl, h.books.namespaces, fun hi hnone => ?_, fun hns hns' => ?_⟩
    · rw [hget, if_neg (Nat.ne_of_lt hi), hnone]
    · rw [hget, if_neg (hold hns), hns] at hns'
      obtain rfl := Option.some.inj hns'
      exact ⟨Nat.le_refl _, fun _ => rfl⟩
  · refine ⟨fun hf => ?_, fun ha => Nat.lt_succ_of_lt (h.books.artifacts ha), fun hi => ?_, ?_⟩
    · exact ⟨Nat.lt_succ_of_lt (h.books.functions hf).1, Nat.lt_succ_of_lt (h.books.functions hf).2⟩
    · rw [hget] at hi
      split at hi
      · next he => exact he ▸ Nat.lt_succ_self _
      · exact Nat.lt_succ_of_lt (h.books.namespaces hi)
    · intro i n c hl
      rw [World.lookup, hget] at hl
      split at hl
      · cases hl
      · exact h.books.bound hl
  · exact ⟨Nat.lt_succ_of_lt (h.twin.taken hm).1, Nat.lt_succ_of_lt (h.twin.taken hm).2⟩
  · rcases hi with ⟨rfl, rfl⟩ | hi
    · exact ⟨Nat.lt_succ_self _, Nat.lt_succ_self _⟩
    · exact ⟨Nat.lt_succ_of_lt (h.twin.placed hi).1, Nat.lt_succ_of_lt (h.twin.placed hi).2⟩
  · intro i i' hi
    rw [hget, hget]
    rcases hi with ⟨rfl, rfl⟩ | hi
    · rw [if_pos rfl, if_pos rfl]
      exact .some ⟨fun _ => .none, h.maxRecursion⟩
    · rw [if_neg (fresh i i' hi).1, if_neg (fresh i i' hi).2]
      have hspaces := h.spaces hi
      generalize w.namespace? i = n at hspaces ⊢
      generalize w'.namespace? i' = n' at hspaces ⊢
      cases hspaces with
      | none => exact .none
      | some hns => exact .some (hns.mono hle)

/-- The world after a number was taken. -/
def taken (w : World) : World := { w with nextId := w.nextId + 1 }

/-- A new function on each side. -/
theorem newFunction (h : Engine ρ streams L w w') (hid : ρ.homes id id') (d : Definition)
    (origin : Origin) (captures : List (String × Value)) :
    ∃ σ, ρ ≤ σ ∧ ∃ M, L ≤ M ∧ Engine σ streams M (taken w) (taken w') ∧
      (Callable.function (.build w.nextId d origin id captures)).Given σ M
        (.function (.build w'.nextId d origin id' captures)) := by
  have fresh : ρ.Fresh w.nextId w'.nextId := fun m m' hm =>
    ⟨Nat.ne_of_lt (h.twin.taken hm).1, Nat.ne_of_lt (h.twin.taken hm).2⟩
  have new : ∀ f, L.functions f → f.id ≠ (Function.build w.nextId d origin id captures).id :=
    fun f hf => Nat.ne_of_lt (h.books.functions hf).1
  have hle := Renumbering.le_withFunction fresh
  have hle' := L.le_withFunction new
  refine ⟨ρ.withFunction fresh, hle, L.withFunction _ new, hle', ?_,
    .function ⟨⟨rfl, rfl, hid, rfl, rfl⟩, .inl ⟨rfl, rfl⟩⟩, Callable.known_function (.inl rfl)⟩
  refine h.change hle' (.of_same h.books.namespaces ((World.Same.refl w).touch rfl rfl) (Nat.le_succ _))
    (fun _ he => he) rfl rfl ?_ (fun hm => ?_) (fun hi => ?_) fun hi => ?_
  · refine ⟨fun hf => ?_, fun ha => Nat.lt_succ_of_lt (h.books.artifacts ha),
      fun hi => Nat.lt_succ_of_lt (h.books.namespaces hi), fun hl => (h.books.bound hl).mono hle'⟩
    rcases hf with rfl | hf
    · exact ⟨Nat.lt_succ_self _, Nat.lt_succ_of_lt (h.twin.placed hid).1⟩
    · exact ⟨Nat.lt_succ_of_lt (h.books.functions hf).1, Nat.lt_succ_of_lt (h.books.functions hf).2⟩
  · rcases hm with ⟨rfl, rfl⟩ | hm
    · exact ⟨Nat.lt_succ_self _, Nat.lt_succ_self _⟩
    · exact ⟨Nat.lt_succ_of_lt (h.twin.taken hm).1, Nat.lt_succ_of_lt (h.twin.taken hm).2⟩
  · exact ⟨Nat.lt_succ_of_lt (h.twin.placed hi).1, Nat.lt_succ_of_lt (h.twin.placed hi).2⟩
  · have hspaces := h.spaces hi
    change Option.Rel _ (w.namespace? _) (w'.namespace? _)
    generalize w.namespace? _ = n at hspaces ⊢
    generalize w'.namespace? _ = n' at hspaces ⊢
    cases hspaces with
    | none => exact .none
    | some hns => exact .some (hns.mono hle)

end Engine

/-! ## Reading texts -/

section

variable {α β γ δ : Type} {P : Renumbering → Ledger → α → β → Prop}
  {Q : Renumbering → Ledger → γ → δ → Prop} {p : Except Fault α × World} {q : Except Fault β × World}

/-- Runs of two engines end alike; both may have made functions and namespaces. -/
def Engine.Goes (ρ : Renumbering) (streams : List KeyStream) (L : Ledger)
    (P : Renumbering → Ledger → α → β → Prop) (p : Except Fault α × World)
    (q : Except Fault β × World) : Prop :=
  ∃ σ, ρ ≤ σ ∧ Engine.Ends σ streams L (P σ) p q

namespace Engine

theorem Ends.goes (h : Ends ρ streams L (P ρ) p q) : Goes ρ streams L P p q := ⟨ρ, ρ.le_refl, h⟩

theorem Goes.lift (hle : ρ ≤ σ) (hle' : L ≤ M) (h : Goes σ streams M P p q) :
    Goes ρ streams L P p q := by
  obtain ⟨τ, hτ, N, hN, hend⟩ := h
  exact ⟨τ, Renumbering.le_trans hle hτ, N, Ledger.le_trans hle' hN, hend⟩

/-- One run after the other. -/
theorem Goes.bind {x : Act α} {y : Act β} {f : α → Act γ} {g : β → Act δ}
    (h : Goes ρ streams L P (x w) (y w'))
    (step : ∀ σ M a b v v', ρ ≤ σ → L ≤ M → x w = (.ok a, v) → Engine σ streams M v v' →
      P σ M a b → Goes σ streams M Q (f a v) (g b v')) :
    Goes ρ streams L Q ((x >>= f) w) ((y >>= g) w') := by
  obtain ⟨σ, hσ, M, hM, hengine, hout⟩ := h
  rw [Run.bind_apply, Run.bind_apply]
  generalize hx : x w = p at hengine hout
  generalize y w' = q at hengine hout
  obtain ⟨r, v⟩ := p
  obtain ⟨r', v'⟩ := q
  cases hout with
  | ok hab => exact (step σ M _ _ v v' hσ hM hx hengine hab).lift hσ hM
  | error e => exact ⟨σ, hσ, M, hM, hengine, .error e⟩

/-- A run whose fault is handled. -/
theorem Ends.handle {R : Ledger → α → β → Prop} {x : Act α} {y : Act β} {f : Fault → Act α}
    {g : Fault → Act β} (h : Ends ρ streams L R (x w) (y w'))
    (handler : ∀ M e v v', Engine ρ streams M v v' → Ends ρ streams M R (f e v) (g e v')) :
    Ends ρ streams L R ((tryCatch x f : Act α) w) ((tryCatch y g : Act β) w') := by
  obtain ⟨M, hM, hengine, hout⟩ := h
  rw [Run.tryCatch_apply, Run.tryCatch_apply]
  generalize x w = p at hengine hout
  generalize y w' = q at hengine hout
  obtain ⟨r, v⟩ := p
  obtain ⟨r', v'⟩ := q
  cases hout with
  | ok hab => exact ⟨M, hM, hengine, .ok hab⟩
  | error e =>
      obtain ⟨N, hN, hend⟩ := handler M e v v' hengine
      exact ⟨N, Ledger.le_trans hM hN, hend⟩

/-- One run after another that made nothing but artifacts. -/
theorem Ends.andGoes {R : Ledger → α → β → Prop} {x : Act α} {y : Act β} {f : α → Act γ}
    {g : β → Act δ} (h : Ends ρ streams L R (x w) (y w'))
    (step : ∀ M a b v v', L ≤ M → x w = (.ok a, v) → Engine ρ streams M v v' → R M a b →
      Goes ρ streams M Q (f a v) (g b v')) :
    Goes ρ streams L Q ((x >>= f) w) ((y >>= g) w') := by
  obtain ⟨M, hM, hengine, hout⟩ := h
  rw [Run.bind_apply, Run.bind_apply]
  generalize hx : x w = p at hengine hout
  generalize y w' = q at hengine hout
  obtain ⟨r, v⟩ := p
  obtain ⟨r', v'⟩ := q
  cases hout with
  | ok hab => exact (step M _ _ v v' hM hx hengine hab).lift ρ.le_refl hM
  | error e => exact ⟨ρ, ρ.le_refl, M, hM, hengine, .error e⟩

end Engine

end

namespace World

/-- The streams that calls of bound callables ask for. -/
def boundAsks (w : World) : List KeyStream :=
  w.namespaces.flatMap fun entry => entry.2.callables.flatMap (Callable.asks w)

theorem asked_of_boundAsks (h : w.boundAsks ⊆ streams) : w.Asked streams := by
  rintro c ⟨id, name, hl⟩
  obtain ⟨ns, hns, hget⟩ := Option.bind_eq_some_iff.mp hl
  obtain ⟨entry, hfind, rfl⟩ := Option.map_eq_some_iff.mp hns
  refine fun k hk => h (List.mem_flatMap.mpr ⟨entry, List.mem_of_find?_eq_some hfind, ?_⟩)
  exact List.mem_flatMap.mpr
    ⟨c, List.mem_filterMap.mpr ⟨(name, .callable c), Dictionary.mem_of_get? hget, rfl⟩, hk⟩

end World

namespace Item

/-- The streams that reading an item can ask for: the value of a constant may come to any call. -/
def asks (w : World) : Item → List KeyStream
  | .constant .. => w.boundAsks
  | _ => []

/-- The streams that evaluating the constants among the items can ask for, one after the other. -/
def asksEach (home : NamespaceId) : List Item → World → List KeyStream
  | [], _ => []
  | item :: rest, w => item.asks w ++ asksEach home rest (item.evaluate home w).2

end Item

/-- The streams that binding the items of a text can ask for. -/
def Program.asks (p : Program) (home : NamespaceId) (origin : Span → Origin) (w : World) :
    List KeyStream :=
  Item.asksEach home p.items (Item.each (Item.declare home origin) p.items w).2

namespace Engine

variable {id id' : NamespaceId}

theorem freshId_ends (h : Engine ρ streams L w w') :
    Ends ρ streams L (fun _ _ _ => True) (Act.freshId w) (Act.freshId w') :=
  h.ends_of_twins Act.transparent_freshId Act.transparent_freshId (Act.freshId_twins w w' h.twin)

theorem modify_ends {f g : World → World} (h : Engine ρ streams L (f w) (g w')) :
    Ends ρ streams L (fun _ _ _ => True) ((modify f : Act Unit) w) ((modify g : Act Unit) w') :=
  value h trivial

/-- A function of a fresh number is made, and the run goes on with it. -/
theorem newFunction_goes {α : Type} {P : Renumbering → Ledger → α → α → Prop}
    (h : Engine ρ streams L w w') (hid : ρ.homes id id') (d : Definition) (origin : Origin)
    (captures : List (String × Value)) (k : Function → Act α)
    (step : ∀ σ M f f' v v', ρ ≤ σ → L ≤ M → Engine σ streams M v v' →
      (Callable.function f).Given σ M (.function f') → Goes σ streams M P (k f v) (k f' v')) :
    Goes ρ streams L P ((Act.freshId >>= fun i => k (.build i d origin id captures)) w)
      ((Act.freshId >>= fun i => k (.build i d origin id' captures)) w') := by
  obtain ⟨σ, hσ, M, hM, hengine, hgiven⟩ := h.newFunction hid d origin captures
  exact (step σ M _ _ _ _ hσ hM hengine hgiven).lift hσ hM

theorem callableOf_goes (h : Engine ρ streams L w w') (hid : ρ.homes id id') (d : Definition)
    (origin : Origin) :
    Goes ρ streams L Callable.Given (Item.callableOf id d origin w)
      (Item.callableOf id' d origin w') := by
  let make (f : Function) : Act Callable :=
    if d.isMarked "fs" then do return .gateway ⟨← Act.freshId, f⟩ else return .function f
  refine h.newFunction_goes hid d origin [] make fun σ M f f' v v' _ _ hv hf => ?_
  dsimp only [make]
  split
  · refine hv.freshId_ends.andGoes fun N i i' s s' hN _ hs _ => ?_
    cases hf.twin with
    | function hff =>
        exact Ends.goes (value hs ⟨.gateway hff,
          Callable.known_gateway (hN.functions hf.known.function)⟩)
  · exact Ends.goes (value hv hf)

theorem bindName_ends (h : Engine ρ streams L w w') (hid : ρ.homes id id') (name : String)
    {g g' : Global} (hg : g.Given ρ L g') :
    Ends ρ streams L (fun _ => Eq) (Item.bindName id name g w) (Item.bindName id' name g' w') :=
  (modify_ends (h.define hid name hg)).bind fun _ _ _ _ _ _ _ hv _ => value hv rfl

/-- A function or an import is bound alike. -/
theorem declare_goes (h : Engine ρ streams L w w') (hid : ρ.homes id id') (origin : Span → Origin)
    (item : Item) :
    Goes ρ streams L (fun _ _ => Eq) (item.declare id origin w) (item.declare id' origin w') := by
  cases item with
  | function d span =>
      refine (h.callableOf_goes hid d (origin span)).bind fun σ M c c' v v' hσ _ _ hv hc => ?_
      refine (hv.bindName_ends (hσ.homes hid) d.name.text ⟨.callable hc.twin, ?_⟩).goes
      rintro _ ⟨⟩
      exact hc.known
  | import_ p pathSpan span =>
      rw [Item.declare, Item.declare]
      cases himported : Item.imported p pathSpan with
      | error d => exact (value h rfl).goes
      | ok entry =>
          refine (h.bindName_ends hid entry.1 ?_).goes
          rw [Item.imported] at himported
          split at himported
          · split at himported
            · cases himported
              exact ⟨.callable (.native _), by rintro _ ⟨⟩; exact Callable.known_native _⟩
            · cases himported
              exact ⟨.constant _, by rintro _ ⟨⟩⟩
            · cases himported
          · cases himported
  | constant name e span => exact (value h rfl).goes

/-- A constant is evaluated and bound alike. -/
theorem evaluate_ends (h : Engine ρ streams L w w') (free : CollisionFree streams)
    (hid : ρ.homes id id') (item : Item) (asked : item.asks w ⊆ streams) :
    Ends ρ streams L (fun _ => Eq) (item.evaluate id w) (item.evaluate id' w') := by
  cases item with
  | function d span => exact value h rfl
  | import_ p pathSpan span => exact value h rfl
  | constant name e span =>
      rw [Item.evaluate, Item.evaluate]
      have hrun : Ends ρ streams L (fun _ => Eq)
          ((do Item.bindName id name.text (.constant (← Act.evalConstant id e)) : Act Loaded) w)
          ((do Item.bindName id' name.text (.constant (← Act.evalConstant id' e)) : Act Loaded) w') := by
        refine Ends.bind (P := fun _ => Eq) ?_ fun M a b v v' hM _ hv hab => ?_
        · refine h.freshId_ends.bind fun M i i' v v' _ hx hv _ => ?_
          have hsame := Act.transparent_freshId.same_of_eq hx
          have hkin : (Function.build i (.ofConstant e) .interactive id []).Kin ρ
              (.build i' (.ofConstant e) .interactive id' []) := ⟨rfl, rfl, hid, rfl, rfl⟩
          exact hv.callFunction_ends free ((World.asked_of_boundAsks asked).of_same hsame) hkin []
        · subst hab
          exact hv.bindName_ends hid name.text ⟨.constant a, by rintro _ ⟨⟩⟩
      refine hrun.handle fun M e v v' hv => ?_
      cases e with
      | report d => exact value hv rfl
      | exhausted => exact hv.fault .exhausted

theorem declareEach_goes (h : Engine ρ streams L w w') (hid : ρ.homes id id')
    (origin : Span → Origin) (items : List Item) :
    Goes ρ streams L (fun _ _ => Eq) (Item.each (Item.declare id origin) items w)
      (Item.each (Item.declare id' origin) items w') := by
  induction items generalizing ρ L w w' with
  | nil => exact Ends.goes (value h rfl)
  | cons item rest ih =>
      refine (h.declare_goes hid origin item).bind fun σ M a b v v' hσ _ _ hv hab => ?_
      refine (ih hv (hσ.homes hid)).bind fun τ N c d s s' _ _ _ hs hcd => ?_
      subst hab hcd
      exact Ends.goes (value hs rfl)

theorem evaluateEach_ends (h : Engine ρ streams L w w') (free : CollisionFree streams)
    (hid : ρ.homes id id') (items : List Item) (asked : Item.asksEach id items w ⊆ streams) :
    Ends ρ streams L (fun _ => Eq) (Item.each (Item.evaluate id) items w)
      (Item.each (Item.evaluate id') items w') := by
  induction items generalizing L w w' with
  | nil => exact value h rfl
  | cons item rest ih =>
      obtain ⟨hitem, hrest⟩ := List.append_subset.mp asked
      refine (h.evaluate_ends free hid item hitem).bind fun M a b v v' _ hx hv hab => ?_
      rw [hx] at hrest
      refine (ih hv hrest).bind fun N c d s s' _ _ hs hcd => ?_
      subst hab hcd
      exact value hs rfl

/-- The items of a text are bound alike. -/
theorem bindItems_goes (h : Engine ρ streams L w w') (free : CollisionFree streams)
    (hid : ρ.homes id id') (p : Program) (origin : Span → Origin)
    (asked : p.asks id origin w ⊆ streams) :
    Goes ρ streams L (fun _ _ => Eq) (p.bindItems id origin w) (p.bindItems id' origin w') := by
  refine (h.declareEach_goes hid origin p.items).bind fun σ M a b v v' hσ _ hx hv hab => ?_
  rw [Program.asks, hx] at asked
  refine (hv.evaluateEach_ends free (hσ.homes hid) p.items asked).andGoes
    fun N c d s s' _ _ hs hcd => ?_
  subst hab hcd
  exact Ends.goes (value hs rfl)

end Engine

/-! ## Modules -/

namespace Module

/-- Modules of twin namespaces, with the same name and the same texts. -/
structure Twin (ρ : Renumbering) (m m' : Module) : Prop where
  name : m.name = m'.name
  home : ρ.homes m.home m'.home
  sources : m.sources = m'.sources

theorem Twin.mono {m m' : Module} (h : m.Twin ρ m') (hle : ρ ≤ σ) : m.Twin σ m' :=
  ⟨h.name, hle.homes h.home, h.sources⟩

/-- Steps of loading that succeed alike, or have the same things wrong. -/
inductive Checked.Twin {α : Type} (P : α → α → Prop) : Checked α → Checked α → Prop
  | ok {a b : α} : P a b → Checked.Twin P (.ok a) (.ok b)
  | error (reports : List Diagnostic) : Checked.Twin P (.error reports) (.error reports)

/-- The streams that reading a text into a namespace can ask for. -/
def asks (w : World) (home : NamespaceId) (source : String) (origin : Span → Origin) :
    List KeyStream :=
  match Program.parse source with
  | .error _ => []
  | .ok p => p.asks home origin w

end Module

namespace Engine

variable {m m' : Module}

theorem readItems_goes (h : Engine ρ streams L w w') (free : CollisionFree streams)
    (hm : m.Twin ρ m') (source : String) (origin : Span → Origin)
    (asked : Module.asks w m.home source origin ⊆ streams) :
    Goes ρ streams L (fun _ _ => Eq) (m.readItems source origin w)
      (m'.readItems source origin w') := by
  rw [Module.asks] at asked
  rw [Module.readItems.eq_def, Module.readItems.eq_def]
  cases hparse : Program.parse source with
  | error reports => exact Ends.goes (value h rfl)
  | ok p =>
      rw [hparse] at asked
      refine (h.bindItems_goes free hm.home p origin asked).bind fun σ M a b v v' _ _ _ hv hab => ?_
      subst hab
      exact Ends.goes (value hv rfl)

/-- Modules are extended alike. -/
theorem extend_goes (h : Engine ρ streams L w w') (free : CollisionFree streams)
    (hm : m.Twin ρ m') (file source : String)
    (asked : Module.asks w m.home source (.source ⟨file, source⟩) ⊆ streams) :
    Goes ρ streams L
      (fun σ _ => Module.Checked.Twin fun r r' => r.1.Twin σ r'.1 ∧ r.2 = r'.2)
      (m.extend file source w) (m'.extend file source w') := by
  refine (h.readItems_goes free hm source _ asked).bind fun σ M a b v v' hσ _ _ hv hab => ?_
  subst hab
  cases a with
  | error reports => exact Ends.goes (value hv (.error reports))
  | ok names =>
      refine Ends.goes (value hv (.ok ⟨⟨hm.name, hσ.homes hm.home, ?_⟩, rfl⟩))
      dsimp only
      rw [hm.sources]

/-- Modules are loaded alike. -/
theorem loadFile_goes (h : Engine ρ streams L w w') (free : CollisionFree streams)
    (name file source : String)
    (asked : Module.asks (w.addNamespace name).2 (w.addNamespace name).1 source
      (.source ⟨file, source⟩) ⊆ streams) :
    Goes ρ streams L (fun σ _ => Module.Checked.Twin (Module.Twin σ))
      (Module.loadFile name file source w) (Module.loadFile name file source w') := by
  obtain ⟨σ, hσ, hhome, hengine⟩ := h.addNamespace name
  refine Goes.lift hσ (Ledger.le_refl L) ?_
  have hm : Module.Twin σ ⟨name, (w.addNamespace name).1, []⟩ ⟨name, (w'.addNamespace name).1, []⟩ :=
    ⟨rfl, hhome, rfl⟩
  refine (hengine.extend_goes free hm file source asked).bind fun τ M r r' v v' hτ _ _ hv hr => ?_
  cases hr with
  | ok hrr => exact Ends.goes (value hv (.ok hrr.1))
  | error reports =>
      exact (modify_ends (hv.drop (hτ.homes hhome))).andGoes fun N _ _ s s' _ _ hs _ =>
        Ends.goes (value hs (.error reports))

end Engine

end Graft
