import Graft.Proofs.Lockstep
import Graft.Proofs.Replacements

/-!
# Specializations in lockstep

A specialization is made alike in worlds where names are bound to twins, whatever numbers are taken,
wherever passes put their bindings, and whatever is traced. What is compared first are the runs that
look at no cache.
-/

namespace Graft

open Correspondence (keeping)

/-- The two runs keep the worlds twins. -/
abbrev Act.twins (ρ : Renumbering) (o : Outset) : Correspondence World World :=
  keeping (World.Twin ρ o)

variable {ρ : Renumbering} {o : Outset} {w w' : World}

namespace Act

variable {α β : Type} {P : α → β → Prop}

theorem trace_twins (on on' : Bool) (line line' : String) :
    (twins ρ o).Runs (fun _ _ => True) (trace on line) (trace on' line') := by
  have happly : ∀ (b : Bool) (l : String) (v : World), ∃ u, trace b l v = (.ok ⟨⟩, u) ∧
      v.Same u ∧ v.nextId = u.nextId ∧ u.cache = v.cache := by
    intro b l v
    cases b with
    | true => exact ⟨_, rfl, (World.Same.refl v).touch rfl rfl, rfl, rfl⟩
    | false => exact ⟨v, rfl, .refl v, rfl, rfl⟩
  intro w w' hw
  obtain ⟨v, hv, hsame, hn, hcache⟩ := happly on line w
  obtain ⟨v', hv', hsame', hn', -⟩ := happly on' line' w'
  rw [hv, hv']
  exact .value trivial (hw.of_same hsame hsame' (Nat.le_of_eq hn) (Nat.le_of_eq hn') hcache)

/-- Fresh numbers are taken on both sides. -/
theorem freshId_twins : (twins ρ o).Runs (fun _ _ => True) freshId freshId :=
  fun _ _ hw => .value trivial (hw.of_same ((World.Same.refl _).touch rfl rfl)
    ((World.Same.refl _).touch rfl rfl) (Nat.le_succ _) (Nat.le_succ _) rfl)

end Act

/-! ## Passes in worlds -/

namespace Pass

theorem outset_write (t : SymbolTable) (w : World) (id : NamespaceId) (key : String)
    (g : Option Global) : (t.write w id key g).2.outset = w.outset := by
  cases t with
  | shared => rfl
  | overlay entries => cases g <;> rfl

/-- Undoing bindings takes no numbers, and leaves the cache alone. -/
theorem outset_restore (debug : Bool) (s : State) :
    (restore debug s).2.world.outset = s.world.outset := by
  have hfold : ∀ (replaced : List Replaced) (p : SymbolTable × World),
      (replaced.foldr (fun entry (p : SymbolTable × World) =>
        p.1.write p.2 entry.home entry.key entry.previous) p).2.outset = p.2.outset := by
    intro replaced p
    induction replaced with
    | nil => rfl
    | cons entry rest ih =>
        rw [List.foldr_cons, outset_write]
        exact ih
  have hrestored : (s.registry.restore s.world).2.outset = s.world.outset :=
    hfold s.registry.replaced (s.registry.table, s.world)
  rw [restore, Run.bind_apply, Run.get_apply]
  dsimp only
  rw [Run.bind_apply, Run.set_apply]
  dsimp only
  cases h : debug && s.registry.replaced.length != 0
  · exact hrestored
  · exact hrestored

theorem nextId_restore (debug : Bool) (s : State) :
    (restore debug s).2.world.nextId = s.world.nextId :=
  congrArg Outset.nextId (outset_restore debug s)

/-- Passes that go in lockstep from their start do so in worlds. -/
theorem within_twins {α β : Type} {P : α → β → Prop} {isolation isolation' : Isolation}
    {debug debug' : Bool} {pass : Pass α} {pass' : Pass β} (hpass : ∀ w, Undoable w pass)
    (hpass' : ∀ w, Undoable w pass')
    (h : ∀ w w', w.Twin ρ o w' →
      (twins ρ w w').Ends P (pass (.start isolation w)) (pass' (.start isolation' w'))) :
    (Act.twins ρ o).Runs (fun r r' => P r.1 r'.1 ∧ r.2 = r'.2)
      (within (.ofIsolation isolation) debug pass)
      (within (.ofIsolation isolation') debug' pass') := by
  intro w w' hw
  have hsame := (transparent_within hpass isolation debug).same w
  have hsame' := (transparent_within hpass' isolation' debug').same w'
  rw [within_apply] at hsame hsame' ⊢
  rw [within_apply]
  change w.Same (restore debug (pass (.start isolation w)).2).2.world at hsame
  change w'.Same (restore debug' (pass' (.start isolation' w')).2).2.world at hsame'
  change (Act.twins ρ o).Ends _
    ((pass (.start isolation w)).1.map fun a => (a, (pass (.start isolation w)).2.matched),
      (restore debug (pass (.start isolation w)).2).2.world)
    ((pass' (.start isolation' w')).1.map fun a => (a, (pass' (.start isolation' w')).2.matched),
      (restore debug' (pass' (.start isolation' w')).2).2.world)
  have hends := h w w' hw
  generalize pass (.start isolation w) = p at hends hsame ⊢
  generalize pass' (.start isolation' w') = q at hends hsame' ⊢
  have hstates : State.Twin ρ w w' p.2 q.2 := hends.after
  have hafter : World.Twin ρ o (restore debug p.2).2.world (restore debug' q.2).2.world := by
    refine hw.of_same hsame hsame' ?_ ?_ ?_
    · rw [nextId_restore]
      exact hstates.nextId
    · rw [nextId_restore]
      exact hstates.nextId'
    · exact (congrArg Outset.cache (outset_restore debug p.2)).trans hstates.cache
  obtain ⟨a, b, s, t, rfl, rfl, hab, hst⟩ | ⟨e, s, t, rfl, rfl, hst⟩ := hends.keeping_cases
  · exact .value ⟨hab, hst.matched⟩ hafter
  · exact .fault rfl hafter

end Pass

/-! ## Conversion -/

theorem Function.compile_twins {f f' : Function} (hf : f.Twin ρ f') :
    (Act.twins ρ o).Runs (Artifact.NewAlike o.nextId) f.compile f'.compile := by
  intro w w' hw
  have hcompile := Linker.compile_twin hw.linker w.counts w'.counts hf w.nextId w'.nextId
  rw [compile_apply, compile_apply]
  generalize w.linker.compile w.nextId f = r at hcompile
  generalize w'.linker.compile w'.nextId f' = r' at hcompile
  cases hcompile with
  | error e => exact .fault rfl hw
  | @ok p p' hp =>
      exact .value ⟨hp.1, Nat.le_trans hw.least hp.2.1⟩ (hw.of_same ((World.Same.refl w).touch rfl rfl)
        ((World.Same.refl w').touch rfl rfl) hp.2.2.1 hp.2.2.2 rfl)

theorem Callable.convert_twins {c c' : Callable} (hc : c.Twin ρ c') :
    (Act.twins ρ o).Runs (Callable.Twin ρ) c.convert c'.convert := by
  cases hc with
  | function hf => exact (Function.compile_twins hf).bind fun a a' ha => .pure (.artifact ha.alike)
  | artifact ha => exact .pure (.artifact ha)
  | native n => exact .pure (.native n)
  | gateway hg =>
      rw [convert, convert, notPlain, notPlain, (Callable.Twin.gateway hg).describe]
      exact .fail _
  | bound d hg hall =>
      rw [convert, convert, notPlain, notPlain, (Callable.Twin.bound d hg hall).describe]
      exact .fail _

/-! ## Replacements -/

namespace Substitution

variable {raw raw' made made' rest rest' : Substitution} {isolation isolation' : Isolation}
  {debug debug' : Bool}

theorem contains_twin (h : Callable.AllTwin ρ raw raw') (name : String) :
    Dictionary.contains name raw = Dictionary.contains name raw' := by
  have hget := h.get? name
  rw [Dictionary.contains, Dictionary.contains]
  generalize Dictionary.get? name raw = l at hget ⊢
  generalize Dictionary.get? name raw' = l' at hget ⊢
  cases hget <;> rfl

theorem pending_twin (h : Callable.AllTwin ρ raw raw') {c c' : Callable} (hc : c.Twin ρ c') :
    Option.Rel (Function.Twin ρ) (raw.pending? c) (raw'.pending? c') := by
  cases hc with
  | function hf =>
      rw [pending?, pending?, contains_twin h, hf.name]
      split
      · exact .none
      · exact .some hf
  | artifact _ | native _ | gateway _ | bound _ _ _ => exact .none

theorem prepareReplacement_twins (hraw : Callable.AllTwin ρ raw raw') (name : String)
    {f f' : Function} (hf : f.Twin ρ f') :
    (Act.twins ρ o).Runs (fun r r' => Artifact.NewAlike o.nextId r.1 r'.1 ∧ r.2 = r'.2)
      (raw.prepareReplacement isolation debug name f)
      (raw'.prepareReplacement isolation' debug' name f') :=
  Correspondence.Runs.mapReport (Pass.within_twins
    (fun w => Pass.undoable_substituteCompiled (w := w) raw debug f)
    (fun w => Pass.undoable_substituteCompiled (w := w) raw' debug' f')
    fun _ _ hw => Pass.substituteCompiled_twins hw hraw hf) _

theorem prepareReplacements_twins (hraw : Callable.AllTwin ρ raw raw')
    (hrest : Callable.AllTwin ρ rest rest') :
    (Act.twins ρ o).Runs (fun r r' => Callable.AllTwin ρ r.1 r'.1 ∧ r.2 = r'.2)
      (raw.prepareReplacements isolation debug rest)
      (raw'.prepareReplacements isolation' debug' rest') := by
  induction rest generalizing rest' with
  | nil => cases hrest; exact .pure ⟨.nil, rfl⟩
  | cons entry rest ih =>
      cases hrest with
      | @cons c c' _ rest' name hc hrest =>
          rw [prepareReplacements, prepareReplacements]
          have hpending := pending_twin hraw hc
          generalize raw.pending? c = p at hpending
          generalize raw'.pending? c' = p' at hpending
          cases hpending with
          | none => exact ih hrest
          | @some f f' hf =>
              refine (prepareReplacement_twins hraw name hf).bind fun r r' hr =>
                (ih hrest).bind fun t t' ht => ?_
              exact .pure ⟨.cons name (.artifact hr.1.alike) ht.1, by rw [hr.2, ht.2]⟩

theorem convertOthers_twins (hmade : Callable.AllTwin ρ made made')
    (hrest : Callable.AllTwin ρ rest rest') :
    (Act.twins ρ o).Runs (Callable.AllTwin ρ) (convertOthers made rest)
      (convertOthers made' rest') := by
  induction rest generalizing rest' with
  | nil => cases hrest; exact .pure .nil
  | cons entry rest ih =>
      cases hrest with
      | @cons c c' _ rest' name hc hrest =>
          rw [convertOthers, convertOthers]
          have hget := hmade.get? name
          generalize Dictionary.get? name made = m at hget
          generalize Dictionary.get? name made' = m' at hget
          have hgo : ∀ d d' : Callable, d.Twin ρ d' →
              (Act.twins ρ o).Runs (Callable.AllTwin ρ)
                (do return (name, d) :: (← convertOthers made rest))
                (do return (name, d') :: (← convertOthers made' rest')) :=
            fun d d' hd => (ih hrest).bind fun l l' hl => .pure (.cons name hd hl)
          cases hget with
          | some hd => exact (Correspondence.Runs.pure hd).bind hgo
          | none => exact ((Callable.convert_twins hc).mapReport _).bind hgo

theorem prepare_twins (hraw : Callable.AllTwin ρ raw raw') :
    (Act.twins ρ o).Runs (fun r r' => Callable.AllTwin ρ r.1 r'.1 ∧ r.2 = r'.2)
      (raw.prepare isolation debug) (raw'.prepare isolation' debug') :=
  (prepareReplacements_twins hraw hraw).bind fun _ _ hr =>
    (convertOthers_twins hr.1 hraw).bind fun _ _ ht => .pure ⟨ht, hr.2⟩

end Substitution

/-! ## Call graphs -/

namespace CallGraph

/-- The same functions call the same ones. -/
structure Twin (ρ : Renumbering) (g g' : CallGraph) : Prop where
  nodes : List.Forall₂ (Function.Twin ρ) g.nodes g'.nodes
  edges : g.edges = g'.edges

theorem callees_twin (hw : w.Twin ρ o w') {excluded excluded' : List String}
    (hexcluded : ∀ n, excluded.contains n = excluded'.contains n) {f f' : Function}
    (hf : f.Kin ρ f') :
    List.Forall₂ (Function.Twin ρ) (callees w excluded f) (callees w' excluded' f') := by
  rw [callees, callees, hf.definition]
  simp only [hexcluded]
  refine List.rel_filterMap (R := Eq) ?_ (List.forall₂_eq_eq_eq.symm ▸ rfl)
  rintro name _ rfl
  dsimp only
  have hlookup := hw.lookup hf.home name
  generalize w.lookup f.home name = l at hlookup
  generalize w'.lookup f'.home name = l' at hlookup
  cases hlookup with
  | none => exact .none
  | some hg =>
      cases hg with
      | constant v => exact .none
      | callable hc => exact hc.plain?

theorem findIdx?_twin {nodes nodes' : List Function}
    (h : List.Forall₂ (Function.Twin ρ) nodes nodes') {c c' : Function} (hc : c.Twin ρ c') :
    (nodes.findIdx? fun f => f.id = c.id) = nodes'.findIdx? fun f => f.id = c'.id := by
  induction h with
  | nil => rfl
  | @cons f f' _ _ hf _ ih =>
      rw [List.findIdx?_cons, List.findIdx?_cons, ih,
        decide_eq_decide.mpr (ρ.functions_iff hf.number hc.number)]

theorem addCallee_twin {g g' : CallGraph} (h : g.Twin ρ g') (i : Nat) {c c' : Function}
    (hc : c.Twin ρ c') : (g.addCallee i c).Twin ρ (g'.addCallee i c') := by
  rw [addCallee, addCallee, findIdx?_twin h.nodes hc, h.edges, h.nodes.length_eq]
  split
  · exact ⟨h.nodes, rfl⟩
  · exact ⟨List.rel_append h.nodes (.cons hc .nil), rfl⟩

/-- A search that looks at the nodes from place `i` on, and the fuel that is left for it. -/
structure Exploring (bound : Nat) (binds : Function → Prop) (fuel i : Nat) (g : CallGraph) :
    Prop where
  enough : bound + 1 ≤ i + fuel
  distinct : (g.nodes.map Function.id).Nodup
  /-- All but the first were found. -/
  found : ∀ f ∈ g.nodes.tail, binds f
  start : g.nodes ≠ []

namespace Exploring

variable {bound fuel i : Nat} {binds : Function → Prop} {g : CallGraph}

/-- When the fuel is used up, every node was looked at. -/
theorem length_le (h : Exploring bound binds 0 i g) (counts : Counts bound binds) :
    g.nodes.length ≤ i := by
  obtain ⟨henough, hdistinct, hfound, hstart⟩ := h
  cases hnodes : g.nodes with
  | nil => exact absurd hnodes hstart
  | cons f rest =>
      rw [hnodes] at hdistinct hfound
      have hlength := counts (rest.map Function.id) (List.nodup_cons.mp hdistinct).2
        fun n hn => by
          obtain ⟨c, hc, rfl⟩ := List.mem_map.mp hn
          exact ⟨c, hfound c hc, rfl⟩
      rw [List.length_map] at hlength
      rw [List.length_cons]
      omega

theorem addCallee (h : Exploring bound binds fuel i g) (j : Nat) {c : Function} (hc : binds c) :
    Exploring bound binds fuel i (g.addCallee j c) := by
  rw [CallGraph.addCallee]
  split
  · exact ⟨h.enough, h.distinct, h.found, h.start⟩
  · next hnone =>
      refine ⟨h.enough, ?_, ?_, by simp⟩
      · rw [List.map_append, List.nodup_append]
        refine ⟨h.distinct, by simp, fun n hn m hm => ?_⟩
        obtain rfl : m = c.id := by simpa using hm
        obtain ⟨f, hf, rfl⟩ := List.mem_map.mp hn
        simpa using List.findIdx?_eq_none_iff.mp hnone f hf
      · intro f hf
        rw [List.tail_append_of_ne_nil h.start] at hf
        rcases List.mem_append.mp hf with hf | hf
        · exact h.found f hf
        · rw [List.mem_singleton.mp hf]
          exact hc

theorem next (h : Exploring bound binds (fuel + 1) i g) : Exploring bound binds fuel (i + 1) g :=
  ⟨by have := h.enough; omega, h.distinct, h.found, h.start⟩

end Exploring

theorem mem_callees {excluded : List String} {f c : Function} (h : c ∈ callees w excluded f) :
    Finds w.lookup c := by
  rw [callees] at h
  obtain ⟨name, -, hc⟩ := List.mem_filterMap.mp h
  split at hc
  · next d hl => exact ⟨_, _, _, hl, hc⟩
  · cases hc

/-- When every node was looked at, the search is over. -/
theorem explore_of_length_le {excluded : List String} {fuel i : Nat} {g : CallGraph}
    (h : g.nodes.length ≤ i) : explore w excluded fuel i g = .ok g := by
  cases fuel with
  | zero => rw [explore, if_neg (Nat.not_lt.mpr h)]
  | succ fuel => rw [explore, List.getElem?_eq_none h]

/-- The same graph is found, and neither search lacks fuel. -/
theorem explore_twin (hw : w.Twin ρ o w') {excluded excluded' : List String}
    (hexcluded : ∀ n, excluded.contains n = excluded'.contains n) {fuel fuel' i : Nat}
    {g g' : CallGraph} (hg : g.Twin ρ g')
    (he : Exploring w.bindingCount (Finds w.lookup) fuel i g)
    (he' : Exploring w'.bindingCount (Finds w'.lookup) fuel' i g') :
    Outcomes (Twin ρ) (explore w excluded fuel i g) (explore w' excluded' fuel' i g') := by
  induction fuel generalizing fuel' i g g' with
  | zero =>
      have hle := he.length_le w.counts
      rw [explore_of_length_le hle, explore_of_length_le (hg.nodes.length_eq ▸ hle)]
      exact .ok hg
  | succ fuel ih =>
      by_cases hle : g.nodes.length ≤ i
      · rw [explore_of_length_le hle, explore_of_length_le (hg.nodes.length_eq ▸ hle)]
        exact .ok hg
      · cases fuel' with
        | zero => exact absurd (hg.nodes.length_eq ▸ he'.length_le w'.counts) hle
        | succ fuel' =>
            rw [explore, explore]
            have hi : i < g.nodes.length := Nat.lt_of_not_le hle
            have hi' : i < g'.nodes.length := hg.nodes.length_eq ▸ hi
            rw [List.getElem?_eq_getElem hi, List.getElem?_eq_getElem hi']
            have hnode : g.nodes[i].Twin ρ g'.nodes[i] := hg.nodes.get hi hi'
            dsimp only
            obtain ⟨ns, ns', hs, hs'⟩ | ⟨d, hs, hs'⟩ := hw.home hnode.toKin
            · rw [hs, hs']
              dsimp only
              have hcallees := callees_twin hw hexcluded hnode.toKin
              have hfound : ∀ c ∈ callees w excluded g.nodes[i], Finds w.lookup c :=
                fun c hc => mem_callees hc
              have hfound' : ∀ c ∈ callees w' excluded' g'.nodes[i], Finds w'.lookup c :=
                fun c hc => mem_callees hc
              revert hcallees hfound hfound'
              generalize callees w excluded g.nodes[i] = cs
              generalize callees w' excluded' g'.nodes[i] = cs'
              intro hcallees hfound hfound'
              -- callees are added pairwise, and no more of them are found than functions are bound
              have hfold : ∀ {k k' : CallGraph}, k.Twin ρ k' →
                  Exploring w.bindingCount (Finds w.lookup) (fuel + 1) i k →
                  Exploring w'.bindingCount (Finds w'.lookup) (fuel' + 1) i k' →
                  (cs.foldl (fun g c => g.addCallee i c) k).Twin ρ
                      (cs'.foldl (fun g c => g.addCallee i c) k') ∧
                    Exploring w.bindingCount (Finds w.lookup) (fuel + 1) i
                      (cs.foldl (fun g c => g.addCallee i c) k) ∧
                    Exploring w'.bindingCount (Finds w'.lookup) (fuel' + 1) i
                      (cs'.foldl (fun g c => g.addCallee i c) k') := by
                clear hnode hi hi' hs hs'
                induction hcallees with
                | nil => exact fun hk he he' => ⟨hk, he, he'⟩
                | cons hc _ ihc =>
                    intro k k' hk he he'
                    rw [List.foldl_cons, List.foldl_cons]
                    exact ihc (fun c h => hfound c (List.mem_cons_of_mem _ h))
                      (fun c h => hfound' c (List.mem_cons_of_mem _ h)) (addCallee_twin hk i hc)
                      (he.addCallee i (hfound _ List.mem_cons_self))
                      (he'.addCallee i (hfound' _ List.mem_cons_self))
              obtain ⟨htwin, hex, hex'⟩ := hfold hg he he'
              exact ih htwin hex.next hex'.next
            · rw [hs, hs']
              exact .error _

theorem build_twin (hw : w.Twin ρ o w') {excluded excluded' : List String}
    (hexcluded : ∀ n, excluded.contains n = excluded'.contains n) {f f' : Function}
    (hf : f.Twin ρ f') : Outcomes (Twin ρ) (build w f excluded) (build w' f' excluded') := by
  have hstart : ∀ (v : World) (f : Function),
      Exploring v.bindingCount (Finds v.lookup) (v.bindingCount + 1) 0 ⟨[f], []⟩ :=
    fun v f => ⟨Nat.le_of_eq (by omega), List.nodup_cons.mpr ⟨by simp, List.nodup_nil⟩,
      fun c hc => (List.not_mem_nil hc).elim, List.cons_ne_nil _ _⟩
  exact explore_twin hw hexcluded ⟨.cons hf .nil, rfl⟩ (hstart w f) (hstart w' f')

theorem nameAt_twin {g g' : CallGraph} (h : g.Twin ρ g') : g.nameAt = g'.nameAt := by
  funext v
  have hnames : g.nodes.map Function.name = g'.nodes.map Function.name := by
    rw [← List.forall₂_eq_eq_eq, List.forall₂_map_left_iff, List.forall₂_map_right_iff]
    exact h.nodes.imp fun f f' hf => hf.name
  rw [nameAt, nameAt, ← List.getElem?_map, ← List.getElem?_map, hnames]

/-- The same cycle is found, by its names. -/
theorem findCycle_twin {g g' : CallGraph} (h : g.Twin ρ g') : g.findCycle = g'.findCycle := by
  have hsuccessors : g.successors = g'.successors := by
    funext v
    rw [successors, h.edges, successors]
  have hcomponents : g.components = g'.components := by
    rw [components, components, h.nodes.length_eq, hsuccessors]
  have hlooped : g.isLooped = g'.isLooped := by
    funext component
    rw [isLooped.eq_def, isLooped.eq_def, h.edges]
  rw [findCycle, findCycle, hcomponents, hlooped, nameAt_twin h]

end CallGraph

/-! ## Specializations -/

namespace Function

variable {overrides overrides' : List (String × Callable)} {debug debug' : Bool}

theorem checkAcyclic_twins {f f' : Function} (hf : f.Twin ρ f')
    (hkeys : ∀ n, (Dictionary.keys overrides).contains n = (Dictionary.keys overrides').contains n) :
    (Act.twins ρ o).Runs (fun _ _ => True) (f.checkAcyclic overrides)
      (f'.checkAcyclic overrides') := by
  refine Correspondence.Runs.get.bind fun w w' hw => ?_
  have hbuild := CallGraph.build_twin hw hkeys hf
  generalize CallGraph.build w f _ = r at hbuild
  generalize CallGraph.build w' f' _ = r' at hbuild
  cases hbuild with
  | error e =>
      exact .bind (P := fun _ _ => False) (.throw (e := e) (f := e) rfl) fun _ _ h => h.elim
  | @ok g g' hg =>
      refine Correspondence.Runs.bind (P := CallGraph.Twin ρ) (.pure hg) fun g g' hg => ?_
      rw [CallGraph.findCycle_twin hg]
      split
      · rw [recursive, recursive, hf.nameSpan]
        exact .fail _
      · exact .pure trivial

theorem checkMatched_twins {v v' : World} {f f' : Function} (hf : f.Kin ρ f') (strict : Bool)
    (names : List String) :
    (Pass.twins ρ v v').Runs (fun _ _ => True) (f.checkMatched strict debug names)
      (f'.checkMatched strict debug' names) := by
  induction names with
  | nil => exact .pure trivial
  | cons name rest ih =>
      rw [checkMatched, checkMatched, unmatched, unmatched, hf.name, hf.nameSpan]
      split
      · exact .fail _
      · exact (Pass.trace_twins _ _ _ _).bind fun _ _ _ => ih

/-- The check takes no number back. -/
theorem preserves_checkMatched {k : Nat} (f : Function) (strict debug : Bool)
    (names : List String) :
    Run.Preserves (fun s : Pass.State => k < s.world.nextId) (f.checkMatched strict debug names) := by
  induction names with
  | nil => exact .pure _
  | cons name rest ih =>
      refine .ite (.fail _) (.bind (fun s hs => ?_) fun _ => ih)
      rcases debug with _ | _
      · exact hs
      · exact hs

/-- The last pass of a specialization: the overrides that met a call site are checked. -/
def lastPass (f : Function) (table : Substitution) (used : List String) (strict debug : Bool) :
    Pass Artifact := do
  let a ← Pass.substituteCompiled table debug f
  let matched := Ordered.union used (← get).matched
  let idle := (Dictionary.keys table).filter fun name => !matched.contains name
  f.checkMatched strict debug idle
  return a

theorem undoable_lastPass (f : Function) (table : Substitution) (used : List String)
    (strict debug : Bool) : Pass.Undoable w (f.lastPass table used strict debug) :=
  (Pass.undoable_substituteCompiled table debug f).bind fun _ => Run.Preserves.get.bind fun _ =>
    (undoable_checkMatched f _ debug _).bind fun _ => .pure _

theorem specializeAnew_eq (f : Function) (overrides : List (String × Callable)) (debug : Bool) :
    f.specializeAnew overrides debug = (do
      let w ← get
      let (table, used) ← Substitution.prepare (Dictionary.sorted overrides) w.settings.isolation debug
      return (← Pass.within (.ofIsolation w.settings.isolation) debug
        (f.lastPass table used w.settings.strictOverrides debug)).1 : Act Artifact) := rfl

/-- The steps of a new specialization: what is prepared, the pass, and the check of the overrides. -/
theorem specializeAnew_steps {f : Function} {a : Artifact} {w w' : World}
    (h : f.specializeAnew overrides debug w = (.ok a, w')) :
    ∃ table used t s s', Substitution.prepare (Dictionary.sorted overrides) w.settings.isolation
        debug w = (.ok (table, used), t) ∧
      Pass.substituteCompiled table debug f (.start w.settings.isolation t) = (.ok a, s) ∧
      f.checkMatched w.settings.strictOverrides debug ((Dictionary.keys table).filter fun name =>
        !(Ordered.union used s.matched).contains name) s = (.ok ⟨⟩, s') := by
  rw [specializeAnew_eq] at h
  obtain ⟨_, _, hget, h⟩ := Run.bind_eq_ok h
  cases hget
  obtain ⟨⟨table, used⟩, t, hprepare, h⟩ := Run.bind_eq_ok h
  obtain ⟨⟨b, matched⟩, u, hpass, h⟩ := Run.bind_eq_ok h
  cases h
  obtain ⟨r, hlast, -⟩ := Pass.within_eq_ok hpass
  obtain ⟨_, s, hsubstitute, hlast⟩ := Run.bind_eq_ok hlast
  obtain ⟨_, _, hget, hlast⟩ := Run.bind_eq_ok hlast
  cases hget
  obtain ⟨_, _, hcheck, hlast⟩ := Run.bind_eq_ok hlast
  cases hlast
  exact ⟨table, used, t, s, _, hprepare, hsubstitute, hcheck⟩

/-- A specialization is made alike, wherever its passes put their bindings. -/
theorem specializeAnew_twins {f f' : Function} (hf : f.Twin ρ f')
    (hoverrides : Callable.AllTwin ρ (Dictionary.sorted overrides)
      (Dictionary.sorted overrides')) :
    (Act.twins ρ o).Runs (Artifact.NewAlike o.nextId) (f.specializeAnew overrides debug)
      (f'.specializeAnew overrides' debug') := by
  rw [specializeAnew_eq, specializeAnew_eq]
  refine Correspondence.Runs.get.bind fun w w' hw => ?_
  rw [hw.strict]
  refine (Substitution.prepare_twins hoverrides).bind fun r r' hr => ?_
  obtain ⟨table, used⟩ := r
  obtain ⟨table', used'⟩ := r'
  obtain ⟨htable, rfl⟩ := hr
  refine (Pass.within_twins (P := Artifact.NewAlike o.nextId) (fun w => undoable_lastPass f _ _ _ _)
    (fun w => undoable_lastPass f' _ _ _ _) fun v v' hv => ?_).bind fun a a' ha => .pure ha.1
  rw [lastPass, lastPass]
  refine (Pass.substituteCompiled_twins hv htable hf).bind fun a a' ha => ?_
  refine Correspondence.Runs.get.bind fun s s' hs => ?_
  rw [hs.matched, Callable.AllTwin.keys htable]
  exact (checkMatched_twins hf.toKin _ _).bind fun _ _ _ => .pure ha

/-- A specialization that looks at no cache. -/
def specializeFresh (f : Function) (overrides : List (String × Callable)) (debug : Bool) :
    Act Artifact := do
  f.checkAcyclic overrides
  f.specializeAnew overrides debug

theorem specializeFresh_twins {f f' : Function} (hf : f.Twin ρ f')
    (hkeys : ∀ n, (Dictionary.keys overrides).contains n = (Dictionary.keys overrides').contains n)
    (hoverrides : Callable.AllTwin ρ (Dictionary.sorted overrides)
      (Dictionary.sorted overrides')) :
    (Act.twins ρ o).Runs (Artifact.NewAlike o.nextId) (f.specializeFresh overrides debug)
      (f'.specializeFresh overrides' debug') :=
  (checkAcyclic_twins hf hkeys).bind fun _ _ _ => specializeAnew_twins hf hoverrides

theorem id_lt_of_compile {f : Function} {a : Artifact} (h : f.compile w = (.ok a, w')) :
    a.id < w'.nextId := by
  rw [compile_apply] at h
  split at h
  · next hc =>
      cases h
      exact (Linker.compile_eq_ok hc).2
  · cases h

/-- The number of a new artifact is taken. -/
theorem id_lt_of_specializeFresh {f : Function} {a : Artifact}
    (h : f.specializeFresh overrides debug w = (.ok a, w')) : a.id < w'.nextId := by
  obtain ⟨_, w₁, -, h⟩ := Run.bind_eq_ok h
  rw [specializeAnew_eq] at h
  obtain ⟨_, _, hget, h⟩ := Run.bind_eq_ok h
  cases hget
  obtain ⟨⟨table, used⟩, w₂, -, h⟩ := Run.bind_eq_ok h
  obtain ⟨⟨b, matched⟩, w₃, hpass, h⟩ := Run.bind_eq_ok h
  cases h
  rw [Pass.within_apply] at hpass
  generalize hs : f.lastPass table used _ debug _ = p at hpass
  obtain ⟨r, s⟩ := p
  cases r with
  | error e => cases hpass
  | ok c =>
      cases hpass
      rw [Pass.nextId_restore]
      obtain ⟨_, s₁, hcompiled, hs⟩ := Run.bind_eq_ok hs
      obtain ⟨_, s₂, hget, hs⟩ := Run.bind_eq_ok hs
      cases hget
      obtain ⟨_, s₃, hcheck, hs⟩ := Run.bind_eq_ok hs
      cases hs
      obtain ⟨g, t, -, hcompile⟩ := Run.bind_eq_ok hcompiled
      have hmade : b.id < s₁.world.nextId := by
        rw [Pass.compile_apply] at hcompile
        split at hcompile
        · next hc =>
            cases hcompile
            exact (Linker.compile_eq_ok hc).2
        · cases hcompile
      exact congrArg Prod.snd hcheck ▸ preserves_checkMatched f _ debug _ s₁ hmade

/-- Overrides make the same definition of twins, which is not compiled. -/
theorem explain_twins {f f' : Function} (hf : f.Twin ρ f')
    (hoverrides : Callable.AllTwin ρ overrides overrides') :
    (Act.twins ρ o).Runs Eq (f.explain overrides debug) (f'.explain overrides' debug') := by
  have hunwrapped := hoverrides.unwrapOverrides
  refine (checkAcyclic_twins hf fun n => by rw [hunwrapped.keys]).bind fun _ _ _ => ?_
  refine (Substitution.prepare_twins hunwrapped.sorted).bind fun r r' hr => ?_
  obtain ⟨table, used⟩ := r
  obtain ⟨table', used'⟩ := r'
  refine (Pass.within_twins (P := Pass.NewTwin ρ) (fun w => Pass.undoable_substitute _ _ _)
    (fun w => Pass.undoable_substitute _ _ _)
    fun v v' hv => Pass.substitute_twins hv hr.1 hf).bind fun g g' hg => ?_
  exact .pure hg.1.kin.definition

end Function

end Graft
