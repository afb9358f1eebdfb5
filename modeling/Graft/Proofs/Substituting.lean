import Graft.Proofs.Aliases
import Graft.Proofs.Passes

/-!
# A pass implements substitution

While a pass runs, a name is bound as it was before, or to an artifact that does what its function
does under the substitutions; and an alias is bound to its replacement. A rewritten function that is
compiled against such bindings does what the function does under the substitutions.
-/

namespace Graft

open Filter (atTop)

/-- The names that were called, with the one that is called at the site. -/
def Pass.addCalled (names : List String) (site : CallSite) : List String :=
  match site.callee.single? with
  | some n => if names.contains n then names else names ++ [n]
  | none => names

theorem Pass.calledInOrder_eq (b : Block) : calledInOrder b = b.callSites.foldl addCalled [] := rfl

theorem Pass.mem_calledInOrder {b : Block} {n : String} :
    n ∈ calledInOrder b ↔ b.Calls ⟨n, []⟩ := by
  have h : ∀ (sites : List CallSite) (names : List String),
      n ∈ sites.foldl addCalled names ↔ n ∈ names ∨ ∃ site ∈ sites, site.callee = ⟨n, []⟩ := by
    intro sites
    induction sites with
    | nil => intro names; simp
    | cons site rest ih =>
        intro names
        rw [List.foldl_cons, ih, addCalled]
        cases hs : site.callee.single? with
        | none =>
            have hne : site.callee ≠ ⟨n, []⟩ := by
              intro he
              rw [Path.single?_eq_some.mpr he] at hs
              cases hs
            simp [hne]
        | some m =>
            have hm := Path.single?_eq_some.mp hs
            simp only [List.mem_cons, exists_eq_or_imp, hm, Path.mk.injEq, and_true]
            split
            · next hc =>
                have hmem : m ∈ names := List.contains_iff_mem.mp hc
                grind
            · rw [List.mem_append, List.mem_singleton, or_assoc, @eq_comm _ n m]
  rw [calledInOrder_eq, h]
  simp [Block.Calls]

namespace Pass

section

variable {made : Function → Artifact → Prop} {v : World} {table : Substitution}

/-! ## What holds while a pass runs -/

/-- Names are bound as in the world `v`, except that functions may have been replaced by artifacts
that were made of them, and aliases are bound to their replacements. -/
structure Sound (made : Function → Artifact → Prop) (v : World) (table : Substitution)
    (s : State) : Prop where
  live : ∀ id, (s.world.namespace? id).isSome → (v.namespace? id).isSome
  names : ∀ id n, (s.world.namespace? id).isSome → PlainName n →
    s.lookup id n = v.lookup id n ∨
      ∃ c g a, v.lookup id n = some (.callable c) ∧ c.plain? = some g ∧
        s.lookup id n = some (.callable (.artifact a)) ∧ made g a
  aliases : ∀ id n, s.registry.isRecorded id (overrideAlias n) = true →
    ∃ r, Dictionary.get? n table = some r ∧
      s.lookup id (overrideAlias n) = some (.callable r)

/-- No function is bound to the name. -/
def State.Settled (s : State) (id : NamespaceId) (n : String) : Prop :=
  ∀ c f, s.lookup id n = some (.callable c) → c.plain? ≠ some f

/-- What was decided stays decided. -/
structure State.Extends (s t : State) : Prop where
  live : ∀ id, (t.world.namespace? id).isSome = (s.world.namespace? id).isSome
  settled : ∀ id n, PlainName n → s.Settled id n → t.lookup id n = s.lookup id n
  recorded : ∀ id key, s.registry.isRecorded id key = true →
    t.registry.isRecorded id key = true

namespace State.Extends

variable {s t u : State}

theorem trans (h : s.Extends t) (h' : t.Extends u) : s.Extends u where
  live id := (h'.live id).trans (h.live id)
  settled id n hn hs := by
    have ht := h.settled id n hn hs
    refine (h'.settled id n hn fun c f hc => ?_).trans ht
    rw [ht] at hc
    exact hs c f hc
  recorded id key hr := h'.recorded id key (h.recorded id key hr)

theorem of_alike (h : s.Alike t) : s.Extends t where
  live id := by rw [h.namespace? id]
  settled id n _ _ := h.lookup id n
  recorded id key hr := by rw [h.registry]; exact hr

theorem settled_of (h : s.Extends t) {id : NamespaceId} {n : String} (hn : PlainName n)
    (hs : s.Settled id n) : t.Settled id n := by
  intro c f hc
  rw [h.settled id n hn hs] at hc
  exact hs c f hc

end State.Extends

theorem Sound.of_alike {s t : State} (hs : Sound made v table s) (h : s.Alike t) :
    Sound made v table t where
  live id hid := hs.live id (by rwa [h.namespace? id] at hid)
  names id n hid hn := by
    rw [h.lookup id n]
    exact hs.names id n (by rwa [h.namespace? id] at hid) hn
  aliases id n hr := by
    rw [h.registry] at hr
    rw [h.lookup]
    exact hs.aliases id n hr

/-! ## Deciding names -/

/-- What was decided on a name whose calls go to the alias. -/
structure State.Renames (s : State) (v : World) (table : Substitution) (id : NamespaceId)
    (n : String) : Prop where
  bound : (v.lookup id n).isSome
  overridden : (Dictionary.get? n table).isSome
  recorded : s.registry.isRecorded id (overrideAlias n) = true

/-- What was decided on a name whose calls stay. -/
structure State.Leaves (s : State) (v : World) (table : Substitution) (id : NamespaceId)
    (n : String) : Prop where
  free : v.lookup id n = none ∨ Dictionary.get? n table = none
  settled : s.Settled id n

theorem State.Renames.of_extends {s t : State} {id : NamespaceId} {n : String}
    (h : s.Renames v table id n) (he : s.Extends t) : t.Renames v table id n :=
  ⟨h.bound, h.overridden, he.recorded _ _ h.recorded⟩

theorem State.Leaves.of_extends {s t : State} {id : NamespaceId} {n : String}
    (h : s.Leaves v table id n) (hn : PlainName n) (he : s.Extends t) : t.Leaves v table id n :=
  ⟨h.free, he.settled_of hn h.settled⟩

/-- Binding an artifact that was made of the function keeps what holds. -/
theorem Sound.install_artifact {s : State} {id : NamespaceId} {n : String} {c : Callable}
    {f : Function} {a : Artifact} (hs : Sound made v table s)
    (hid : (s.world.namespace? id).isSome) (hn : PlainName n)
    (hv : v.lookup id n = some (.callable c)) (hc : c.plain? = some f)
    (ha : made f a) :
    Sound made v table (s.install id n n (.callable (.artifact a))) where
  live i hi := hs.live i (by rwa [State.isSome_namespace?_install] at hi)
  names i m hi hm := by
    rw [State.lookup_install hid]
    by_cases hk : i = id ∧ m = n
    · obtain ⟨rfl, rfl⟩ := hk
      rw [if_pos ⟨rfl, rfl⟩]
      exact .inr ⟨c, f, a, hv, hc, rfl, ha⟩
    · rw [if_neg hk]
      exact hs.names i m (by rwa [State.isSome_namespace?_install] at hi) hm
  aliases i m hr := by
    rcases (State.isRecorded_install n n _ i _).mp hr with ⟨-, hk⟩ | hr
    · exact absurd hk.symm (hn m)
    · obtain ⟨r, htable, hlookup⟩ := hs.aliases i m hr
      refine ⟨r, htable, ?_⟩
      rw [State.lookup_install hid, if_neg fun hk => hn m hk.2.symm, hlookup]

/-- Binding an alias to its replacement keeps what holds. -/
theorem Sound.meet {s : State} {id : NamespaceId} {n : String} {r : Callable}
    (hs : Sound made v table s) (hid : (s.world.namespace? id).isSome)
    (hr : Dictionary.get? n table = some r) : Sound made v table (s.meet id n r) := by
  rw [State.meet]
  split
  · exact hs
  · refine ⟨fun i hi => ?_, fun i m hi hm => ?_, fun i m hrec => ?_⟩
    · exact hs.live i (by rwa [State.isSome_namespace?_install] at hi)
    · rw [State.lookup_install hid, if_neg fun hk => hm n hk.2]
      exact hs.names i m (by rwa [State.isSome_namespace?_install] at hi) hm
    · rw [State.lookup_install hid]
      by_cases hk : i = id ∧ overrideAlias m = overrideAlias n
      · obtain ⟨rfl, hmn⟩ := hk
        obtain rfl := overrideAlias_inj hmn
        exact ⟨r, hr, if_pos ⟨rfl, rfl⟩⟩
      · rw [if_neg hk]
        rcases (State.isRecorded_install _ n _ i _).mp hrec with hk' | hrec
        · exact absurd hk' hk
        · exact hs.aliases i m hrec

theorem State.Extends.meet {s : State} {id : NamespaceId} {n : String} {r : Callable}
    (hid : (s.world.namespace? id).isSome) : s.Extends (s.meet id n r) := by
  rw [State.meet]
  split
  · exact .of_alike (.refl s)
  · refine ⟨fun i => State.isSome_namespace?_install _ _ _ i, fun i m hm _ => ?_,
      fun i key hr => ?_⟩
    · rw [State.lookup_install hid, if_neg fun hk => hm n hk.2]
    · exact (State.isRecorded_install _ _ _ i key).mpr (.inr hr)

/-- Binding a name that was not settled keeps what is. -/
theorem State.Extends.install {s t : State} {id : NamespaceId} {n : String} (h : s.Extends t)
    (hid : (t.world.namespace? id).isSome) (hn : ¬ s.Settled id n) (g : Global) :
    s.Extends (t.install id n n g) where
  live i := by rw [State.isSome_namespace?_install, h.live]
  settled i m hm hs := by
    rw [State.lookup_install hid, if_neg, h.settled i m hm hs]
    rintro ⟨rfl, rfl⟩
    exact hn hs
  recorded i key hr := (State.isRecorded_install _ _ _ i key).mpr (.inr (h.recorded i key hr))

theorem State.meet_recorded {s : State} {id : NamespaceId} {n : String} {r : Callable} :
    (s.meet id n r).registry.isRecorded id (overrideAlias n) = true := by
  rw [State.meet]
  split
  · next h => exact h
  · exact (State.isRecorded_install _ _ _ id _).mpr (.inl ⟨rfl, rfl⟩)

/-- What deciding a name does, if what it binds was made of the function. -/
theorem Decided.sound {callee : Function → Pass Artifact} {s t : State} {id : NamespaceId}
    {n : String} {b : Bool} (h : Decided table callee id n s b t) (hs : Sound made v table s)
    (hid : (s.world.namespace? id).isSome) (hn : PlainName n)
    (hcallee : ∀ c f a u, v.lookup id n = some (.callable c) → c.plain? = some f →
      Dictionary.get? n table = none → callee f s = (.ok a, u) →
      Sound made v table u ∧ s.Extends u ∧ made f a) :
    Sound made v table t ∧ s.Extends t ∧
      if b then t.Renames v table id n else t.Leaves v table id n := by
  have hnames := hs.names id n hid hn
  cases h with
  | unbound hl =>
      rw [hl] at hnames
      obtain hv | ⟨c, g, a, -, -, hv, -⟩ := hnames
      · refine ⟨hs, .of_alike (.refl s), .inl hv.symm, fun c f hc => ?_⟩
        rw [hl] at hc
        cases hc
      · cases hv
  | @overridden g r t hl hr halike =>
      have hbound : (v.lookup id n).isSome := by
        rw [hl] at hnames
        obtain hv | ⟨c, g, a, hv, -⟩ := hnames
        · rw [← hv]
          rfl
        · rw [hv]
          rfl
      refine ⟨(hs.meet hid hr).of_alike halike,
        (State.Extends.meet hid).trans (.of_alike halike), hbound, ?_, ?_⟩
      · rw [hr]
        rfl
      · rw [halike.registry]
        exact State.meet_recorded
  | @replaced c f a t hl hr hc hrun =>
      -- the name has not been replaced, so its function is the one of the world
      have hv : v.lookup id n = some (.callable c) := by
        rw [hl] at hnames
        obtain hv | ⟨c', g, a, -, -, hv, -⟩ := hnames
        · exact hv.symm
        · cases hv
          cases hc
      obtain ⟨ht, hext, ha⟩ := hcallee c f a t hv hc hr hrun
      have hidt : (t.world.namespace? id).isSome := by rw [hext.live id]; exact hid
      refine ⟨ht.install_artifact hidt hn hv hc ha,
        hext.install hidt (fun hs => hs c f hl hc) _, .inr hr, fun c' f' hc' hf' => ?_⟩
      rw [State.lookup_install hidt, if_pos ⟨rfl, rfl⟩] at hc'
      cases hc'
      cases hf'
  | @kept g hl hr hg =>
      refine ⟨hs, .of_alike (.refl s), .inr hr, fun c f hc => ?_⟩
      rw [hl] at hc
      exact hg c f (Option.some.inj hc)

/-- What deciding names one after another does: the names that it gives are those whose calls go to
their aliases. -/
theorem decideAll_sound {debug : Bool} {callee : Function → Pass Artifact} {id : NamespaceId}
    {names found : List String} {s t : State}
    (h : decideAll table debug callee id names s = (.ok found, t)) (hs : Sound made v table s)
    (hid : (s.world.namespace? id).isSome) (hplain : ∀ n ∈ names, PlainName n)
    (hcallee : ∀ n ∈ names, ∀ c f a s u, Sound made v table s → v.lookup id n = some (.callable c) →
      c.plain? = some f → Dictionary.get? n table = none → callee f s = (.ok a, u) →
      Sound made v table u ∧ s.Extends u ∧ made f a) :
    Sound made v table t ∧ s.Extends t ∧ (∀ n ∈ found, t.Renames v table id n) ∧
      ∀ n ∈ names, n ∉ found → t.Leaves v table id n := by
  induction names generalizing s found with
  | nil =>
      cases h
      exact ⟨hs, .of_alike (.refl _), fun n hn => absurd hn List.not_mem_nil,
        fun n hn => absurd hn List.not_mem_nil⟩
  | cons n rest ih =>
      rw [decideAll] at h
      obtain ⟨b, s₁, hb, h⟩ := Run.bind_eq_ok h
      obtain ⟨more, t₁, hmore, h⟩ := Run.bind_eq_ok h
      obtain ⟨rfl, rfl⟩ : (if b then n :: more else more) = found ∧ t₁ = t := by
        cases h
        exact ⟨rfl, rfl⟩
      obtain ⟨hs₁, hext₁, hn⟩ := (decide_eq_ok hb).sound hs hid (hplain n List.mem_cons_self)
        fun c f a u hl hc hr hu => hcallee n List.mem_cons_self c f a s u hs hl hc hr hu
      obtain ⟨ht, hext, hfound, hleft⟩ := ih hmore hs₁ (by rwa [hext₁.live])
        (fun m hm => hplain m (List.mem_cons_of_mem n hm))
        (fun m hm => hcallee m (List.mem_cons_of_mem n hm))
      refine ⟨ht, hext₁.trans hext, ?_⟩
      cases b with
      | true =>
          refine ⟨fun m hm => ?_, fun m hm hm' => ?_⟩
          · rcases List.mem_cons.mp hm with rfl | hm
            · exact State.Renames.of_extends hn hext
            · exact hfound m hm
          · rcases List.mem_cons.mp hm with rfl | hm
            · exact absurd List.mem_cons_self hm'
            · exact hleft m hm fun hmem => hm' (List.mem_cons_of_mem n hmem)
      | false =>
          refine ⟨hfound, fun m hm hm' => ?_⟩
          rcases List.mem_cons.mp hm with rfl | hm
          · exact State.Leaves.of_extends hn (hplain m List.mem_cons_self) hext
          · exact hleft m hm hm'

end

end Pass

end Graft
