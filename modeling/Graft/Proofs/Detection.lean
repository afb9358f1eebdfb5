import Graft.Proofs.Exploring
import Graft.Proofs.Finished

/-!
# Cycles are detected alike

A call graph, a pass and a compilation each look for calls that come back to a function. A pass
descends from a function into those that it calls, as a compilation does, but on its way it binds the
names that it comes to to artifacts. An artifact is bound to a name only after the pass over its
function, from which every chain of calls ends then; so no cycle is hidden.
-/

namespace Graft

variable {w v : World} {table : Substitution} {excluded : List String} {f g : Function}

/-- What is read again from the source of the function is its definition. -/
def Function.Rereads (f : Function) : Prop :=
  ∃ span, f.extract = .ok ⟨[.function f.definition span]⟩

theorem Function.Rereads.readsBack (h : f.Rereads) : f.ReadsBack := by
  obtain ⟨span, hspan⟩ := h
  intro unit hunit
  rw [hspan] at hunit
  cases hunit
  exact ⟨span, rfl⟩

/-- The names are those for which a replacement is given. -/
def Substitution.HasKeys (table : Substitution) (names : List String) : Prop :=
  ∀ n, n ∈ names ↔ (Dictionary.get? n table).isSome

theorem Substitution.HasKeys.not_mem_iff (h : table.HasKeys excluded) {n : String} :
    n ∉ excluded ↔ Dictionary.get? n table = none := by
  rw [h n, Option.not_isSome_iff_eq_none]

theorem Substitution.Finished.plain?_eq_none (h : table.Finished) {n : String} {c : Callable}
    (hc : Dictionary.get? n table = some c) : c.plain? = none := by
  obtain ⟨a, rfl⟩ | ⟨m, rfl⟩ := h n c hc
  · rfl
  · rfl

namespace Pass

variable {made : Function → Artifact → Prop} {s t : State} {debug : Bool}

/-! ## How a pass fails -/

theorem decide_eq_error {callee : Function → Pass Artifact} {id : NamespaceId} {name : String}
    {e : Fault} (h : decide table debug callee id name s = (.error e, t)) :
    ∃ c f e', s.lookup id name = some (.callable c) ∧ Dictionary.get? name table = none ∧
      c.plain? = some f ∧ callee f s = (.error e', t) ∧
      e = e'.map fun d => d.withNote ("while specializing callee `" ++ name ++ "`") := by
  obtain hl | ⟨g, r, hl, hr⟩ | ⟨c, f, hl, hr, hf⟩ | ⟨g, hl, hr, hg⟩ := lookup_cases table id name s
  · rw [decide_unbound _ _ _ hl] at h
    cases h
  · obtain ⟨t', ht', -⟩ := decide_overridden debug callee hl hr
    rw [ht'] at h
    cases h
  · rw [decide_replaced _ _ hl hr hf] at h
    split at h
    · cases h
    · next e' u hu =>
        cases h
        exact ⟨c, f, e', hl, hr, hf, hu, rfl⟩
  · rw [decide_kept _ _ hl hr hg] at h
    cases h

/-- A name on which nothing can be decided is bound to a function whose pass fails. -/
theorem decideAll_faults {fault : Fault → Prop} (note : ∀ e n, fault e → fault (e.map (·.withNote n)))
    {callee : Function → Pass Artifact} {id : NamespaceId} {names : List String} {e : Fault}
    (h : decideAll table debug callee id names s = (.error e, t)) (hs : Sound made v table s)
    (hid : (s.world.namespace? id).isSome) (hplain : ∀ n ∈ names, PlainName n)
    (hcallee : ∀ n ∈ names, ∀ c f a s u, Sound made v table s → v.lookup id n = some (.callable c) →
      c.plain? = some f → Dictionary.get? n table = none → callee f s = (.ok a, u) →
      Sound made v table u ∧ s.Extends u ∧ made f a)
    (hfault : ∀ n ∈ names, ∀ c f e s u, Sound made v table s → v.lookup id n = some (.callable c) →
      c.plain? = some f → Dictionary.get? n table = none → callee f s = (.error e, u) → fault e) :
    fault e := by
  induction names generalizing s with
  | nil => cases h
  | cons n rest ih =>
      rw [decideAll] at h
      rcases Run.bind_eq_error h with hn | ⟨b, s₁, hb, h⟩
      · obtain ⟨c, f, e', hl, hr, hc, hu, rfl⟩ := decide_eq_error hn
        refine note e' _ (hfault n List.mem_cons_self c f e' s t hs ?_ hc hr hu)
        -- A name that is bound to a function now was so from the start.
        obtain hv | ⟨c', g, a, -, -, ha, -⟩ := hs.names id n hid (hplain n List.mem_cons_self)
        · rw [← hv, hl]
        · rw [hl] at ha
          cases ha
          cases hc
      · obtain ⟨hs₁, hext₁, -⟩ := (decide_eq_ok hb).sound hs hid (hplain n List.mem_cons_self)
          fun c f a u hl hc hr hu => hcallee n List.mem_cons_self c f a s u hs hl hc hr hu
        rcases Run.bind_eq_error h with h | ⟨more, t₁, -, h⟩
        · exact ih h hs₁ (by rwa [hext₁.live]) (fun m hm => hplain m (List.mem_cons_of_mem n hm))
            (fun m hm => hcallee m (List.mem_cons_of_mem n hm))
            (fun m hm => hfault m (List.mem_cons_of_mem n hm))
        · cases h

/-- A pass over a function that is read again fails at a name that the function calls, or with a
report of another kind. -/
theorem substituteFunction_eq_error {callee : Function → Pass Artifact} {e : Fault}
    (hreread : f.Rereads) (h : substituteFunction table debug callee f s = (.error e, t)) :
    (∃ d, e = .report d ∧ d.kind ≠ .unsupported) ∨
      ∃ s₁ t₁, s.Alike s₁ ∧ (s₁.world.namespace? f.home).isSome ∧
        decideAll table debug callee f.home (calledInOrder f.definition.body) s₁ =
          (.error e, t₁) := by
  obtain ⟨span, hunit⟩ := hreread
  obtain ⟨s₁, ⟨halike, -⟩, hpass⟩ := substituteFunction_apply table debug callee hunit s
  rw [hpass] at h
  split at h
  · next d hhome =>
      cases h
      refine .inl ⟨d, rfl, ?_⟩
      rw [World.home] at hhome
      split at hhome
      · cases hhome
      · cases hhome
        rintro ⟨⟩
  · next ns hhome =>
      split at h
      · next e' t₁ hdecide =>
          cases h
          exact .inr ⟨s₁, t, halike, isSome_of_home hhome, hdecide⟩
      · next names t₁ hdecide =>
          split at h
          · next d hmade =>
              cases h
              refine .inl ⟨d, rfl, ?_⟩
              rw [Function.reassemble, Function.definitionIn] at hmade
              cases hl : f.locate? ⟨[.function
                  { f.definition with body := renameCalls names f.definition.body } span]⟩ with
              | some d' =>
                  simp only [hl] at hmade
                  cases hmade
              | none =>
                  simp only [hl] at hmade
                  cases hmade
                  rintro ⟨⟩
          · cases h

/-! ## Descending -/

/-- From a function that a pass rewrote every chain of calls ends, since the functions that it calls
were replaced by artifacts. -/
theorem Specialized.ends {names : List String} (keys : table.HasKeys excluded)
    (hs : Sound (fun g _ => g.Ends v.lookup excluded) v table s)
    (h : Specialized v table f names g s) : f.Ends v.lookup excluded := by
  refine .intro f fun k ⟨n, c, hfree, hn, hl, hc⟩ => ?_
  have hnot : n ∉ names := fun hmem => hfree ((keys n).mpr (h.renamed n hmem).overridden)
  have hplain : PlainName n := Block.calls_of_within h.within.uses hn
  obtain hv | ⟨c', k', a, hl', hc', -, hends⟩ := hs.names f.home n h.live hplain
  · exact absurd hc ((h.left n hn hnot).settled c k (hv.trans hl))
  · rw [hl] at hl'
    cases hl'
    rw [hc] at hc'
    cases hc'
    exact hends

/-- What a pass over `f` rests on: it comes to functions that are read again as they are, and binds a
name to an artifact only if the chains of calls from the function end. -/
theorem course_ends (keys : table.HasKeys excluded)
    (reread : ∀ g, f.ComesTo w.lookup excluded g → g.Rereads) :
    Course table w (f.ComesTo w.lookup excluded) fun g _ => g.Ends w.lookup excluded where
  readsBack g hg := (reread g hg).readsBack
  callees _ hg n c _ hn hl hc hfree :=
    hg.tail ⟨n, c, keys.not_mem_iff.mpr hfree, hn, hl, hc⟩
  compiled _ hs hspecialized _ := hspecialized.ends keys hs

/-- What a pass made calls into no function any more. -/
theorem Specialized.not_callsInto {names : List String} (finished : table.Finished)
    (hs : Sound made v table s) (h : Specialized v table f names g s) (k : Function) :
    ¬ g.CallsInto (s.registry.table.linker s.world).lookup [] k := by
  rintro ⟨m, c, -, hm, hl, hc⟩
  obtain ⟨q, hq, hrename⟩ := Block.calls_of_within (h.rewritten.within h.within).uses hm
  rw [h.rewritten.home] at hl
  change s.lookup f.home m = _ at hl
  rw [renamePath] at hrename
  cases hn : q.single? with
  | none =>
      rw [hn] at hrename
      dsimp only at hrename
      rw [hrename] at hn
      cases hn
  | some n =>
      obtain rfl := Path.single?_eq_some.mp hn
      rw [hn] at hrename
      dsimp only at hrename
      by_cases hmem : n ∈ names
      · rw [if_pos (List.contains_iff_mem.mpr hmem)] at hrename
        obtain rfl : overrideAlias n = m := congrArg Path.first hrename
        obtain ⟨r, hr, hlookup⟩ := hs.aliases f.home n (h.renamed n hmem).recorded
        rw [hlookup] at hl
        cases hl
        rw [finished.plain?_eq_none hr] at hc
        cases hc
      · rw [if_neg fun h => hmem (List.contains_iff_mem.mp h)] at hrename
        obtain rfl : n = m := congrArg Path.first hrename
        exact (h.left n hq hmem).settled c k hl hc

/-- The compilation of what a pass made finds no cycle. -/
theorem Specialized.compile_fair {names : List String} {e : Fault} (finished : table.Finished)
    (hs : Sound made v table s) (h : Specialized v table f names g s)
    (hcompile : compile g s = (.error e, t)) (cyclic : Prop) : e.Fair cyclic := by
  have hdetects := Linker.compile_detects_of_leaf (s.registry.table.counts s.world)
    (h.not_callsInto finished hs) s.world.nextId
  rw [compile_apply] at hcompile
  split at hcompile
  · cases hcompile
  · next e' he =>
      cases hcompile
      obtain ⟨d, rfl, hd⟩ := hdetects.fair _ he
      exact ⟨d, rfl, fun htells => (hd htells).elim⟩

/-- A pass that fails tells of a cycle only if there is one. -/
theorem specialize_fair (finished : table.Finished) (keys : table.HasKeys excluded)
    (numbered : f.Numbered w.lookup excluded)
    (reread : ∀ g, f.ComesTo w.lookup excluded g → g.Rereads) {fuel : Nat}
    {active : List (Nat × String)} {e : Fault} (hg : f.ComesTo w.lookup excluded g)
    (hwaiting : Waiting w.bindingCount (Finds w.lookup) fuel active g)
    (hlead : f.Lead w.lookup excluded active g)
    (hs : Sound (fun g _ => g.Ends w.lookup excluded) w table s)
    (h : specialize table debug fuel active g s = (.error e, t)) :
    e.Fair (f.Cyclic w.lookup excluded) := by
  have course := course_ends keys reread
  induction fuel generalizing active g s t e with
  | zero =>
      rw [specialize, if_pos (hwaiting.of_no_fuel w.counts)] at h
      cases h
      exact ⟨_, rfl, fun _ => hlead.cyclic numbered hg (hwaiting.of_no_fuel w.counts)⟩
  | succ fuel ih =>
      rw [specialize] at h
      split at h
      · next hactive =>
          cases h
          exact ⟨_, rfl, fun _ => hlead.cyclic numbered hg hactive⟩
      · next hactive =>
          rcases substituteFunction_eq_error (reread g hg) h with
            ⟨d, rfl, hd⟩ | ⟨s₁, t₁, halike, hlive, hdecide⟩
          · exact .of_kind hd
          · obtain ⟨span, hunit⟩ := reread g hg
            have hplain := Function.within_plain_of_extract hunit
            have hinto : ∀ {n c h}, n ∈ calledInOrder g.definition.body →
                w.lookup g.home n = some (.callable c) → c.plain? = some h →
                Dictionary.get? n table = none → g.CallsInto w.lookup excluded h :=
              fun hn hl hc hr => ⟨_, _, keys.not_mem_iff.mpr hr, mem_calledInOrder.mp hn, hl, hc⟩
            -- a callee fails fairly by induction, or when what its pass made is compiled
            refine decideAll_faults (fun e n he => he.withNote n) hdecide (hs.of_alike halike) hlive
              (fun n hn => Block.calls_of_within hplain.uses (mem_calledInOrder.mp hn)) ?_ ?_
            · intro n hn c h a s' u hs' hl hc hr hu
              exact course.callee_sound (fun hf hs h => course.specialize_sound hf hs h)
                (hg.tail (hinto hn hl hc hr)) hs' hu
            · intro n hn c h e s' u hs' hl hc hr hu
              have hcall := hinto hn hl hc hr
              rcases Run.bind_eq_error hu with hu | ⟨h', s'', hmade, hu⟩
              · exact ih (hg.tail hcall) (hwaiting.next hactive hcall.finds) (hlead.next hg hcall)
                  hs' hu
              · obtain ⟨hs'', -, names, hspecialized⟩ :=
                  course.specialize_sound (hg.tail hcall) hs' hmade
                exact hspecialized.compile_fair finished hs'' hu _

theorem substitute_apply (f : Function) (s : State) :
    substitute table debug f s = specialize table debug (fuelFor s.world) [] f s := by
  rw [substitute, Run.bind_apply, Run.get_apply]

section

variable (finished : table.Finished) (keys : table.HasKeys excluded)
  (numbered : f.Numbered w.lookup excluded)
  (reread : ∀ g, f.ComesTo w.lookup excluded g → g.Rereads) (isolation : Isolation) (debug : Bool)

include finished keys numbered reread

theorem substitute_fair {e : Fault}
    (h : substitute table debug f (.start isolation w) = (.error e, t)) :
    e.Fair (f.Cyclic w.lookup excluded) := by
  rw [substitute_apply] at h
  exact specialize_fair finished keys numbered reread .refl (.start _ _ f) (.start f f)
    (Sound.start (fun _ hlive => ⟨hlive, fun _ => rfl⟩) _ table isolation) h

omit finished numbered in
/-- If a pass succeeds, every chain of calls from the function ends. -/
theorem substitute_sound (h : substitute table debug f (.start isolation w) = (.ok g, t)) :
    Sound (fun g _ => g.Ends w.lookup excluded) w table t ∧
      ∃ names, Specialized w table f names g t := by
  rw [substitute_apply] at h
  obtain ⟨ht, -, hspecialized⟩ := (course_ends keys reread).specialize_sound .refl
    (Sound.start (fun _ hlive => ⟨hlive, fun _ => rfl⟩) _ table isolation) h
  exact ⟨ht, hspecialized⟩

/-- A pass fails if it can come to a cycle of calls, and says so only then. -/
theorem substitute_detects :
    Detects (f.Cyclic w.lookup excluded) (substitute table debug f (.start isolation w)).1 := by
  rcases h : substitute table debug f (.start isolation w) with ⟨e | g, t⟩
  · refine ⟨fun _ => ⟨e, rfl⟩, fun e' he => ?_⟩
    cases he
    exact substitute_fair finished keys numbered reread isolation debug h
  · obtain ⟨ht, names, hspecialized⟩ := substitute_sound keys reread isolation debug h
    exact ⟨fun hcyclic => absurd hcyclic (hspecialized.ends keys ht).not_cyclic,
      fun e he => nomatch he⟩

theorem substituteCompiled_detects :
    Detects (f.Cyclic w.lookup excluded)
      (substituteCompiled table debug f (.start isolation w)).1 := by
  rcases h : substituteCompiled table debug f (.start isolation w) with ⟨e | a, t⟩
  · refine ⟨fun _ => ⟨e, rfl⟩, fun e' he => ?_⟩
    cases he
    rcases Run.bind_eq_error h with h | ⟨g, t₁, h, hcompile⟩
    · exact substitute_fair finished keys numbered reread isolation debug h
    · obtain ⟨ht, names, hspecialized⟩ := substitute_sound keys reread isolation debug h
      exact hspecialized.compile_fair finished ht hcompile _
  · obtain ⟨g, t₁, h, -⟩ := Run.bind_eq_ok h
    obtain ⟨ht, names, hspecialized⟩ := substitute_sound keys reread isolation debug h
    exact ⟨fun hcyclic => absurd hcyclic (hspecialized.ends keys ht).not_cyclic,
      fun e he => nomatch he⟩

end

end Pass

/-- A compilation against the namespaces fails if it can come to a cycle of calls, and says so only
then. -/
theorem Function.compile_detects (numbered : f.Numbered w.lookup []) :
    Detects (f.Cyclic w.lookup []) (f.compile w).1 := by
  have h : Detects (f.Cyclic w.linker.lookup []) (w.linker.compile w.nextId f) :=
    Linker.compile_detects w.counts numbered w.nextId
  rw [compile_apply]
  rcases hrun : w.linker.compile w.nextId f with e | ⟨a, n⟩
  · rw [hrun] at h
    refine ⟨fun _ => ⟨e, rfl⟩, fun e' he => ?_⟩
    cases he
    exact h.fair e rfl
  · rw [hrun] at h
    refine ⟨fun hcyclic => ?_, fun e he => nomatch he⟩
    obtain ⟨e, he⟩ := h.fails hcyclic
    cases he

/-- Cycles of calls are detected alike: the call graph holds exactly the functions that `f` comes to,
and a cycle is found in it exactly if `f` comes to one. Then every pass with finished replacements for
the excluded names fails, and every compilation if no names are excluded; and they tell of a cycle
only then. The functions are told apart by their numbers, and their namespaces are there; for a pass,
they are read again from their source as they are. -/
theorem World.detects_cycles (w : World) (f : Function) (excluded : List String)
    (numbered : f.Numbered w.lookup excluded)
    (live : ∀ g, f.ComesTo w.lookup excluded g → (w.namespace? g.home).isSome) :
    (∃ graph, CallGraph.build w f excluded = .ok graph ∧ graph.Depicts w excluded f ∧
      (graph.findCycle = none ↔ ¬ f.Cyclic w.lookup excluded)) ∧
    ((∀ g, f.ComesTo w.lookup excluded g → g.Rereads) →
      ∀ (table : Substitution) (isolation : Isolation) (debug : Bool), table.Finished →
        table.HasKeys excluded →
        Detects (f.Cyclic w.lookup excluded)
            (Pass.substitute table debug f (.start isolation w)).1 ∧
          Detects (f.Cyclic w.lookup excluded)
            (Pass.substituteCompiled table debug f (.start isolation w)).1) ∧
    (excluded = [] → Detects (f.Cyclic w.lookup excluded) (f.compile w).1) := by
  refine ⟨?_, fun reread table isolation debug finished keys => ⟨?_, ?_⟩, ?_⟩
  · obtain ⟨graph, hgraph, hdepicts⟩ := CallGraph.build_depicts numbered live
    exact ⟨graph, hgraph, hdepicts, hdepicts.findCycle_eq_none_iff⟩
  · exact Pass.substitute_detects finished keys numbered reread isolation debug
  · exact Pass.substituteCompiled_detects finished keys numbered reread isolation debug
  · rintro rfl
    exact Function.compile_detects numbered

namespace Pass

theorem comesTo_chainFirst {excluded : List String} {g : Function}
    (h : chainFirst.ComesTo chainWorld.lookup excluded g) :
    g = chainFirst ∨ g = chainSecond ∨ g = chainLast := by
  induction h with
  | refl => exact .inl rfl
  | tail _ hcall ih =>
      obtain ⟨n, c, -, hcalls, hl, hc⟩ := hcall
      rw [Block.calls_iff] at hcalls
      obtain rfl | rfl | rfl := ih
      · have hsites : chainFirst.definition.body.callSites.map CallSite.callee = [⟨"h", []⟩] := by
          decide +kernel
        rw [hsites, List.mem_singleton] at hcalls
        cases hcalls
        cases hl
        exact .inr (.inl (Option.some.inj hc).symm)
      · have hsites : chainSecond.definition.body.callSites.map CallSite.callee = [⟨"g", []⟩] := by
          decide +kernel
        rw [hsites, List.mem_singleton] at hcalls
        cases hcalls
        cases hl
        exact .inr (.inr (Option.some.inj hc).symm)
      · have hsites : chainLast.definition.body.callSites.map CallSite.callee = [] := by
          decide +kernel
        rw [hsites] at hcalls
        exact absurd hcalls List.not_mem_nil

theorem rereads_loadAt {text : SourceText} {id : Nat} {span : Span}
    (h : isOneFunction (loadAt text id span).extract = true) : (loadAt text id span).Rereads := by
  cases hunit : (loadAt text id span).extract with
  | error d =>
      rw [hunit] at h
      cases h
  | ok unit =>
      obtain ⟨span', rfl⟩ := readsBack_loadAt h unit hunit
      exact ⟨span', hunit⟩

end Pass

open Pass in
theorem World.detects_cycles_chain :
    (∃ graph, CallGraph.build chainWorld chainFirst [] = .ok graph ∧
      graph.Depicts chainWorld [] chainFirst ∧
      (graph.findCycle = none ↔ ¬ chainFirst.Cyclic chainWorld.lookup [])) ∧
    (∀ (isolation : Isolation) (debug : Bool),
      Detects (chainFirst.Cyclic chainWorld.lookup [])
          (substitute [] debug chainFirst (.start isolation chainWorld)).1 ∧
        Detects (chainFirst.Cyclic chainWorld.lookup [])
          (substituteCompiled [] debug chainFirst (.start isolation chainWorld)).1) ∧
    Detects (chainFirst.Cyclic chainWorld.lookup []) (chainFirst.compile chainWorld).1 := by
  obtain ⟨hgraph, hpass, hcompile⟩ := detects_cycles chainWorld chainFirst []
    (fun g h hg hh hid => by
      obtain rfl | rfl | rfl := comesTo_chainFirst hg
      all_goals
        obtain rfl | rfl | rfl := comesTo_chainFirst hh
        all_goals first | rfl | cases hid)
    (fun g hg => by obtain rfl | rfl | rfl := comesTo_chainFirst hg <;> rfl)
  refine ⟨hgraph, fun isolation debug => hpass (fun g hg => ?_) [] isolation debug ?_ ?_, hcompile rfl⟩
  · obtain rfl | rfl | rfl := comesTo_chainFirst hg
    all_goals exact rereads_loadAt (by decide +kernel)
  · exact fun n c h => nomatch h
  · exact fun n => ⟨fun h => absurd h List.not_mem_nil, fun h => nomatch h⟩

namespace Pass

/-- A text of one function, which calls itself. -/
def loopText : SourceText := ⟨"m.fst", "fn f(x) { f(x) }\n"⟩

def loopFunction : Function := loadAt loopText 2 ⟨0, 16⟩

def loopWorld : World :=
  { nextId := 4
    namespaces := [(1, { name := "m", globals := [("f", .callable (.function loopFunction))] })] }

/-- The report tells that `f` calls itself. -/
def tellsLoop : Except Fault Function → Bool
  | .error (.report d) =>
    d.kind == .unsupported &&
      d.message == "cannot specialize recursive call graph " ++ Calls.chain ["f", "f"]
  | _ => false

/-- A function that was made of a changed unit is read again as it was before, so a pass over it tells
of a cycle that it cannot come to. -/
theorem detects_cycles_not_reassembled :
    ∃ f, loopFunction.reassemble 3 chainUnit = .ok f ∧ f.Numbered loopWorld.lookup [] ∧
      (∀ g, f.ComesTo loopWorld.lookup [] g →
        (loopWorld.namespace? g.home).isSome ∧ ∃ unit, g.extract = .ok unit) ∧
      ¬ Detects (f.Cyclic loopWorld.lookup [])
        (substitute [] false f (.start .separate loopWorld)).1 := by
  have hcheck : ((loopFunction.reassemble 3 chainUnit).toOption.any fun f =>
      f.definition.body.callSites.isEmpty && (loopWorld.namespace? f.home).isSome &&
        f.extract.isOk && tellsLoop (substitute [] false f (.start .separate loopWorld)).1) =
      true := by decide +kernel
  cases hf : loopFunction.reassemble 3 chainUnit with
  | error d =>
      rw [hf] at hcheck
      cases hcheck
  | ok f =>
      rw [hf] at hcheck
      dsimp only [Except.toOption, Option.any_some] at hcheck
      rw [Bool.and_eq_true, Bool.and_eq_true, Bool.and_eq_true, List.isEmpty_iff] at hcheck
      obtain ⟨⟨⟨hsites, hlive⟩, hextract⟩, htells⟩ := hcheck
      have hleaf : ∀ g, ¬ f.CallsInto loopWorld.lookup [] g := by
        rintro g ⟨n, c, -, ⟨site, hsite, -⟩, -⟩
        rw [hsites] at hsite
        exact List.not_mem_nil hsite
      have hself : ∀ g, f.ComesTo loopWorld.lookup [] g → g = f := by
        intro g hg
        rcases Relation.ReflTransGen.cases_head hg with rfl | ⟨h, hcall, -⟩
        · rfl
        · exact absurd hcall (hleaf h)
      refine ⟨f, rfl, fun g h hg hh _ => (hself g hg).trans (hself h hh).symm, fun g hg => ?_,
        fun hdetects => ?_⟩
      · obtain rfl := hself g hg
        refine ⟨hlive, ?_⟩
        cases hunit : g.extract with
        | ok unit => exact ⟨unit, rfl⟩
        | error d =>
            rw [hunit] at hextract
            cases hextract
      · generalize (substitute [] false f (.start .separate loopWorld)).1 = r at htells hdetects
        rw [tellsLoop.eq_def] at htells
        split at htells
        · next d =>
            obtain ⟨hkind, hmessage⟩ := Bool.and_eq_true_iff.mp htells
            obtain ⟨d', hd, hcyclic⟩ := hdetects.fair _ rfl
            cases hd
            obtain ⟨g, hg, hcycle⟩ := hcyclic
              ⟨beq_iff_eq.mp hkind, ["f", "f"], .inl (beq_iff_eq.mp hmessage)⟩
            obtain rfl := hself g hg
            obtain ⟨h, hcall, -⟩ := Relation.TransGen.head'_iff.mp hcycle
            exact hleaf h hcall
        · cases htells

end Pass

end Graft
