import Graft.Proofs.Sessions

/-!
# Where passes put what they make

A pass binds the functions that it makes in a table of its own, or in the namespaces, which are
restored afterwards. Whatever happened in a session, both give artifacts alike, or the same fault;
and the definition of the artifact is what explains the overrides.
-/

namespace Graft

/-- The world in which passes put what they make elsewhere. -/
def World.isolating (w : World) (isolation : Isolation) : World :=
  { w with settings := { w.settings with isolation } }

/-! ## Other settings -/

variable {ρ : Renumbering} {streams : List KeyStream} {L : Ledger} {w w' : World}

/-- Neither what is kept nor where passes put what they make has to be set alike. -/
theorem Engine.tuned (h : Engine ρ streams L w w') {t : Settings}
    (strict : t.strictOverrides = w.settings.strictOverrides)
    (maxRecursion : t.maxRecursion = w.settings.maxRecursion) :
    Engine ρ streams L { w with settings := t } w' where
  twin := ⟨h.twin.live, h.twin.lookup, h.twin.taken, h.twin.placed, strict.trans h.twin.strict,
    Nat.le_refl _, rfl⟩
  limit := h.limit
  maxRecursion := maxRecursion.trans h.maxRecursion
  uncached := h.uncached
  books := ⟨h.books.functions, h.books.artifacts, h.books.namespaces, h.books.bound⟩
  kept entry he := by
    obtain ⟨ha, m, hm⟩ := h.kept entry he
    refine ⟨ha, m, hm.mono (Ledger.le_refl L) ?_⟩
    refine ⟨Nat.le_refl _, strict.symm, h.books.namespaces, fun _ hnone => hnone, fun hns hns' => ?_⟩
    obtain rfl := Option.some.inj (hns.symm.trans hns')
    exact ⟨Nat.le_refl _, fun _ => rfl⟩

namespace Outcomes

variable {α β γ : Type} {P : α → β → Prop} {x : Except Fault α} {y : Except Fault β}

theorem imp {Q : α → β → Prop} (h : Outcomes P x y) (hpq : ∀ a b, P a b → Q a b) :
    Outcomes Q x y := by
  cases h with
  | ok hab => exact .ok (hpq _ _ hab)
  | error e => exact .error e

/-- Two runs that end like a third one. -/
theorem meet {Q : γ → β → Prop} {R : α → γ → Prop} {z : Except Fault γ} (h : Outcomes P x y)
    (h' : Outcomes Q z y) (hpq : ∀ a b c, P a b → Q c b → R a c) : Outcomes R x z := by
  cases h with
  | ok hab =>
      cases h' with
      | ok hcb => exact .ok (hpq _ _ _ hab hcb)
  | error e => cases h'; exact .error e

theorem ok_left {a : α} (h : Outcomes P (.ok a) y) : ∃ b, y = .ok b ∧ P a b := by
  cases h with
  | ok hab => exact ⟨_, rfl, hab⟩

theorem ok_right {b : β} (h : Outcomes P x (.ok b)) : ∃ a, x = .ok a ∧ P a b := by
  cases h with
  | ok hab => exact ⟨_, rfl, hab⟩

end Outcomes

/-! ## Gateways of two engines -/

namespace Engine

variable {g g' : Gateway} {ks ks' : Keywords} {r r' : Request}

/-- Under any settings that refuse the same overrides, the first engine makes specializations like
those of the second one. -/
theorem specialize_tuned (h : Engine ρ streams L w w') (free : CollisionFree streams)
    (hg : g.Given ρ L g') (hks : ks.Given ρ L ks') (hr : Request.ofKeywords g.function ks = .ok r)
    (hrr : r.Twin ρ r') {t : Settings} (strict : t.strictOverrides = w.settings.strictOverrides)
    (maxRecursion : t.maxRecursion = w.settings.maxRecursion)
    (asked : t.cache = true → w.keyStream g.function (unwrapOverrides r.overrides) ∈ streams)
    (debug : Bool) :
    Outcomes Artifact.Alike (g.function.specialize r.overrides debug { w with settings := t }).1
      (g'.function.specialize r'.overrides debug w').1 := by
  have hstream : World.keyStream { w with settings := t } g.function (unwrapOverrides r.overrides) =
      w.keyStream g.function (unwrapOverrides r.overrides) :=
    World.keyStream_congr (w := { w with settings := t }) (v := w) rfl rfl _ _
  have hends : Ends ρ streams L Made
      (g.function.specialize r.overrides debug { w with settings := t })
      (g'.function.specialize r'.overrides debug w') :=
    (h.tuned strict maxRecursion).specialize_ends free hg.twin hg.known hrr.overrides
      (Request.known_overrides hr hks.known) (Request.overrides_ofKeywords hr).1
      fun hcache => hstream ▸ asked hcache
  obtain ⟨M, -, -, hout⟩ := hends
  exact hout.imp fun _ _ ha => ha.alike

/-- What the second engine gives is what explains it. -/
theorem explain_of_specialize (h : Engine ρ streams L w w') (free : CollisionFree streams)
    (hg : g.Given ρ L g') (hks : ks.Given ρ L ks') (hr : Request.ofKeywords g.function ks = .ok r)
    (hrr : r.Twin ρ r') (hr' : Request.ofKeywords g'.function ks' = .ok r') {debug : Bool}
    {a' : Artifact} (ha' : (g'.function.specialize r'.overrides debug w').1 = .ok a') :
    (g'.explain ks' w').1 = .ok a'.info.definition.text := by
  -- A first engine that keeps nothing makes an artifact of the same definition anew.
  let t : Settings := { w.settings with cache := false }
  have hout := h.specialize_tuned (t := t) free hg hks hr hrr rfl rfl nofun debug
  rw [ha', Function.specialize_of_uncached (w := { w with settings := t }) rfl] at hout
  obtain ⟨a, ha, haa⟩ := hout.ok_right
  have htwin : World.Twin ρ _ { w with settings := t } w' := (h.tuned (t := t) rfl rfl).twin
  have hexplain : ∀ debug', (g'.function.explain r'.overrides debug' w').1 = .ok a.info.definition :=
    fun debug' => Function.explain_of_specializeFresh htwin hg.twin
      (fun n => by rw [hrr.overrides.unwrapOverrides.keys]) hrr.overrides.unwrapOverrides.sorted
      (Prod.ext ha rfl)
  rw [Gateway.explain, Run.bind_apply, Run.ofOutcome_apply, hr']
  dsimp only [Except.mapError]
  rw [Run.bind_apply, Run.get_apply]
  dsimp only
  rw [Run.bind_apply, ← haa.definition]
  have hexplain := hexplain (r'.debug || w'.settings.debug)
  generalize g'.function.explain r'.overrides (r'.debug || w'.settings.debug) w' = p at hexplain ⊢
  obtain ⟨_, v⟩ := p
  cases hexplain
  rfl

end Engine

/-! ## Sessions -/

/-- In whatever state a session is, a gateway that the client holds is specialized alike in both
places: to artifacts that nothing but numbers tells apart, or with the same fault. If there is an
artifact, its definition is what explains the gateway under the same overrides. -/
theorem isolation_equivalent {settings : Settings} {history : List Session.Command} {s : Session}
    (reached : (Session.start settings).after history = s) {place : Nat} {g : Gateway}
    (hobject : s.client.objects[place]? = some (.gateway g)) {args : List (String × Argument)}
    {ks : Keywords} (hkeywords : s.client.keywords args = some ks) {r : Request}
    (hrequest : Request.ofKeywords g.function ks = .ok r)
    (free : CollisionFree
      ((Session.start settings).asks history ++ s.world.asksFor g.function r.overrides))
    (debug : Bool) :
    Outcomes Artifact.Alike
        (g.function.specialize r.overrides debug (s.world.isolating .separate)).1
        (g.function.specialize r.overrides debug (s.world.isolating .shared)).1 ∧
      ∀ isolation a,
        (g.function.specialize r.overrides debug (s.world.isolating isolation)).1 = .ok a →
        (g.explain ks (s.world.isolating isolation)).1 = .ok a.info.definition.text := by
  -- The session is compared with one that keeps nothing.
  obtain ⟨ρ, L, -, -, hsession⟩ := (Session.twin_start settings settings.cache _).after free history
    (List.subset_append_left _ _)
  change Session.Twin ρ _ L ((Session.start settings).after history) _ at hsession
  rw [reached] at hsession
  generalize (Session.start { settings with cache := false }).after history = s' at hsession
  obtain ⟨hengine, hclient⟩ := hsession
  obtain ⟨g', hg⟩ : ∃ g' : Gateway, g.Given ρ L g' := by
    have hobjects := getElem?_twins hclient.objects place
    rw [hobject] at hobjects
    generalize s'.client.objects[place]? = o at hobjects
    cases hobjects with
    | some hc =>
        obtain ⟨htwin, hknown⟩ := hc
        cases htwin with
        | gateway hg => exact ⟨_, hg, hknown.gateway⟩
  obtain ⟨ks', hks⟩ : ∃ ks', ks.Given ρ L ks' := by
    have hargs := hclient.keywords args
    rw [hkeywords] at hargs
    generalize s'.client.keywords args = o at hargs
    cases hargs with
    | some hks => exact ⟨_, hks⟩
  obtain ⟨r', hrequest', hrr⟩ := Request.ofKeywords_twin hg.twin.toKin hks.twin hrequest
  have halike : ∀ isolation, Outcomes Artifact.Alike
      (g.function.specialize r.overrides debug (s.world.isolating isolation)).1
      (g'.function.specialize r'.overrides debug s'.world).1 := fun isolation =>
    hengine.specialize_tuned (t := { s.world.settings with isolation }) free hg hks hrequest hrr rfl
      rfl (fun hcache => List.mem_append_right _ (by
        rw [World.asksFor, if_pos hcache]
        exact List.mem_singleton_self _)) debug
  refine ⟨(halike .separate).meet (halike .shared) fun _ _ _ h h' => h.trans h'.symm,
    fun isolation a ha => ?_⟩
  have hout := halike isolation
  rw [ha] at hout
  obtain ⟨a', ha', haa⟩ := hout.ok_left
  have hexplain := hengine.explain_of_specialize free hg hks hrequest hrr hrequest' ha'
  obtain ⟨M, -, -, hout⟩ :=
    (hengine.tuned (t := { s.world.settings with isolation }) rfl rfl).explain_ends hg hks
  rw [hexplain] at hout
  obtain ⟨text, htext, rfl⟩ := hout.ok_right
  rw [haa.definition]
  exact htext

/-- The session after its opening. -/
def Session.opened : Session := (Session.start {}).after Session.opening

/-- Whether the client holds a gateway to which the keyword arguments belong, and what it asks for
satisfies `p`. -/
def Session.holds (s : Session) (place : Nat) (args : List (String × Argument))
    (p : Gateway → Request → Bool) : Bool :=
  match s.client.objects[place]?, s.client.keywords args with
  | some (.gateway g), some ks =>
    match Request.ofKeywords g.function ks with
    | .ok r => p g r
    | .error _ => false
  | _, _ => false

theorem Session.exists_of_holds {s : Session} {place : Nat} {args : List (String × Argument)}
    {p : Gateway → Request → Bool} (h : s.holds place args p = true) :
    ∃ g ks r, s.client.objects[place]? = some (.gateway g) ∧ s.client.keywords args = some ks ∧
      Request.ofKeywords g.function ks = .ok r ∧ p g r = true := by
  rw [holds] at h
  split at h
  · next g ks hobject hkeywords =>
      split at h
      · next r hrequest => exact ⟨g, ks, r, hobject, hkeywords, hrequest, h⟩
      · cases h
  · cases h

/-- The first function, with the second one in the place of `g`, is specialized in the namespaces as
in a table apart. -/
theorem isolation_equivalent_opening :
    ∃ g ks r, Session.opened.client.objects[0]? = some (.gateway g) ∧
      Session.opened.client.keywords [("g", .override 1)] = some ks ∧
      Request.ofKeywords g.function ks = .ok r ∧
      ∃ a b : Artifact, a.Alike b ∧
        (g.function.specialize r.overrides false (Session.opened.world.isolating .separate)).1 =
          .ok a ∧
        (g.function.specialize r.overrides false (Session.opened.world.isolating .shared)).1 =
          .ok b ∧
        (g.explain ks (Session.opened.world.isolating .shared)).1 =
          .ok b.info.definition.text := by
  have hholds : Session.opened.holds 0 [("g", .override 1)] (fun g r =>
      let streams := (Session.start {}).asks Session.opening ++
        Session.opened.world.asksFor g.function r.overrides
      decide (∀ k ∈ streams, k.Fits) &&
        decide (∀ k ∈ streams, ∀ k' ∈ streams, k.record = k'.record) &&
        (g.function.specialize r.overrides false (Session.opened.world.isolating .separate)).1.isOk) =
      true := by decide +kernel
  obtain ⟨g, ks, r, hobject, hkeywords, hrequest, hasked⟩ := Session.exists_of_holds hholds
  rw [Bool.and_eq_true, Bool.and_eq_true, decide_eq_true_eq, decide_eq_true_eq] at hasked
  obtain ⟨⟨hfits, hrecords⟩, hok⟩ := hasked
  obtain ⟨hout, hexplain⟩ := isolation_equivalent (s := Session.opened) rfl hobject hkeywords hrequest
    (.of_record_eq hfits hrecords) false
  refine ⟨g, ks, r, hobject, hkeywords, hrequest, ?_⟩
  cases ha : (g.function.specialize r.overrides false
      (Session.opened.world.isolating .separate)).1 with
  | error e =>
      rw [ha] at hok
      cases hok
  | ok a =>
      rw [ha] at hout
      obtain ⟨b, hb, hab⟩ := hout.ok_left
      exact ⟨a, b, hab, rfl, hb, hexplain .shared b hb⟩

end Graft
