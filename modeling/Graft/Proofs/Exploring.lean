import Graft.Proofs.Components
import Graft.Proofs.Cycles
import Graft.Proofs.Gateways

/-!
# Call graphs are what they should be

The nodes of a call graph are the functions that the first one comes to, each of them once, and its
edges are the calls between them. So a cycle of edges is a cycle of calls.
-/

namespace Graft.CallGraph

variable {w : World} {excluded : List String} {root f : Function} {fuel i : Nat} {g : CallGraph}

/-- The names that are called, gathered site by site. -/
theorem mem_foldl_sites (n : String) (sites : List CallSite) (names : List String) :
    n ∈ sites.foldl
      (fun names site =>
        match site.callee.single? with
        | some n => if excluded.contains n || names.contains n then names else names ++ [n]
        | none => names) names ↔
      n ∈ names ∨ n ∉ excluded ∧ ∃ site ∈ sites, site.callee = ⟨n, []⟩ := by
  induction sites generalizing names with
  | nil => simp
  | cons site rest ih =>
      rw [List.foldl_cons, ih]
      cases hs : site.callee.single? with
      | none =>
          have hne : site.callee ≠ ⟨n, []⟩ := by
            intro he
            rw [Path.single?_eq_some.mpr he] at hs
            cases hs
          simp [hne]
      | some m =>
          have hm := Path.single?_eq_some.mp hs
          simp only [List.mem_cons, exists_eq_or_imp, hm, Path.mk.injEq, and_true]
          split
          · next hc =>
              rw [Bool.or_eq_true, List.contains_iff_mem, List.contains_iff_mem] at hc
              grind
          · next hc =>
              rw [Bool.or_eq_true, List.contains_iff_mem, List.contains_iff_mem] at hc
              rw [List.mem_append, List.mem_singleton]
              grind

theorem mem_callees_iff {c : Function} :
    c ∈ callees w excluded f ↔ f.CallsInto w.lookup excluded c := by
  rw [callees, List.mem_filterMap]
  constructor
  · rintro ⟨n, hn, hc⟩
    obtain hn | ⟨hfree, hcalls⟩ := (mem_foldl_sites n _ _).mp hn
    · exact absurd hn List.not_mem_nil
    · split at hc
      · next d hl => exact ⟨n, d, hfree, hcalls, hl, hc⟩
      · cases hc
  · rintro ⟨n, d, hfree, hcalls, hl, hc⟩
    refine ⟨n, (mem_foldl_sites n _ _).mpr (.inr ⟨hfree, hcalls⟩), ?_⟩
    rw [hl]
    exact hc

/-! ## The search for functions -/

/-- The nodes before place `i` were looked at: all that they call is there. -/
structure Explored (w : World) (excluded : List String) (root : Function) (i : Nat)
    (g : CallGraph) : Prop where
  start : root ∈ g.nodes
  comes : ∀ f ∈ g.nodes, root.ComesTo w.lookup excluded f
  sound : ∀ e ∈ g.edges, ∃ a b, g.nodes[e.1]? = some a ∧ g.nodes[e.2]? = some b ∧
    a.CallsInto w.lookup excluded b
  complete : ∀ (j : Nat), j < i → ∀ a b, g.nodes[j]? = some a → a.CallsInto w.lookup excluded b →
    ∃ k : Nat, g.nodes[k]? = some b ∧ (j, k) ∈ g.edges

/-- What is in the graph stays there, at its place. -/
structure Grows (g g' : CallGraph) : Prop where
  nodes : ∀ {k : Nat} {a}, g.nodes[k]? = some a → g'.nodes[k]? = some a
  edges : ∀ {e}, e ∈ g.edges → e ∈ g'.edges

theorem Grows.trans {g g' g'' : CallGraph} (h : g.Grows g') (h' : g'.Grows g'') : g.Grows g'' :=
  ⟨fun hk => h'.nodes (h.nodes hk), fun he => h'.edges (h.edges he)⟩

/-- An edge to a callee is added. -/
theorem Explored.addCallee {c : Function}
    (numbered : root.Numbered w.lookup excluded)
    (hx : Explored w excluded root i g) (hi : g.nodes[i]? = some f)
    (hcall : f.CallsInto w.lookup excluded c) :
    Explored w excluded root i (g.addCallee i c) ∧ g.Grows (g.addCallee i c) ∧
      ∃ k : Nat, (g.addCallee i c).nodes[k]? = some c ∧ (i, k) ∈ (g.addCallee i c).edges := by
  have hlt : i < g.nodes.length := (List.getElem?_eq_some_iff.mp hi).1
  have hc : root.ComesTo w.lookup excluded c := (hx.comes f (List.mem_of_getElem? hi)).tail hcall
  -- It does not matter whether the callee is a new node.
  obtain ⟨k, hgrows, hk, hedges, hcomes⟩ : ∃ k : Nat, g.Grows (g.addCallee i c) ∧
      (g.addCallee i c).nodes[k]? = some c ∧ (g.addCallee i c).edges = g.edges ++ [(i, k)] ∧
      ∀ a ∈ (g.addCallee i c).nodes, a ∈ g.nodes ∨ a = c := by
    rw [CallGraph.addCallee]
    split
    · next k hk =>
        obtain ⟨hlt, hid, -⟩ := List.findIdx?_eq_some_iff_getElem.mp hk
        have hsame : g.nodes[k] = c :=
          numbered _ _ (hx.comes _ (List.getElem_mem hlt)) hc (of_decide_eq_true hid)
        exact ⟨k, ⟨id, List.mem_append_left _⟩, List.getElem?_eq_some_iff.mpr ⟨hlt, hsame⟩, rfl,
          fun a => .inl⟩
    · refine ⟨g.nodes.length, ⟨fun {k a} hk => ?_, List.mem_append_left _⟩, ?_, rfl, fun a ha => ?_⟩
      · rw [List.getElem?_append_left (List.getElem?_eq_some_iff.mp hk).1, hk]
      · exact List.getElem?_concat_length
      · rcases List.mem_append.mp ha with ha | ha
        · exact .inl ha
        · exact .inr (List.mem_singleton.mp ha)
  have hnew : (i, k) ∈ (g.addCallee i c).edges := by
    rw [hedges]
    exact List.mem_append_right _ (List.mem_singleton_self _)
  refine ⟨⟨?_, fun a ha => ?_, fun e he => ?_, fun j hj a b ha hab => ?_⟩, hgrows, k, hk, hnew⟩
  · obtain ⟨j, hj⟩ := List.getElem?_of_mem hx.start
    exact List.mem_of_getElem? (hgrows.nodes hj)
  · rcases hcomes a ha with ha | rfl
    · exact hx.comes a ha
    · exact hc
  · rw [hedges] at he
    rcases List.mem_append.mp he with he | he
    · obtain ⟨a, b, ha, hb, hab⟩ := hx.sound e he
      exact ⟨a, b, hgrows.nodes ha, hgrows.nodes hb, hab⟩
    · rw [List.mem_singleton.mp he]
      exact ⟨f, c, hgrows.nodes hi, hk, hcall⟩
  · have hj' : j < g.nodes.length := Nat.lt_trans hj hlt
    have hold := hgrows.nodes (List.getElem?_eq_getElem hj')
    rw [hold] at ha
    obtain ⟨k', hk', he⟩ := hx.complete j hj a b (by rw [List.getElem?_eq_getElem hj', ha]) hab
    exact ⟨k', hgrows.nodes hk', hgrows.edges he⟩

/-- Edges to callees are added one after another. -/
theorem Explored.addCallees {cs : List Function}
    (numbered : root.Numbered w.lookup excluded)
    (hx : Explored w excluded root i g) (he : Exploring w.bindingCount (Finds w.lookup) fuel i g)
    (hi : g.nodes[i]? = some f) (hcalls : ∀ c ∈ cs, f.CallsInto w.lookup excluded c) :
    let g' := cs.foldl (fun g c => g.addCallee i c) g
    Explored w excluded root i g' ∧ Exploring w.bindingCount (Finds w.lookup) fuel i g' ∧
      g.Grows g' ∧ ∀ c ∈ cs, ∃ k : Nat, g'.nodes[k]? = some c ∧ (i, k) ∈ g'.edges := by
  induction cs generalizing g with
  | nil => exact ⟨hx, he, ⟨id, id⟩, fun c hc => absurd hc List.not_mem_nil⟩
  | cons c rest ih =>
      have hcall := hcalls c List.mem_cons_self
      obtain ⟨hx₁, hgrows₁, k, hk, hedge⟩ := hx.addCallee numbered hi hcall
      obtain ⟨hx₂, he₂, hgrows₂, hrest⟩ := ih hx₁ (he.addCallee i hcall.finds) (hgrows₁.nodes hi)
        fun c' hc' => hcalls c' (List.mem_cons_of_mem c hc')
      refine ⟨hx₂, he₂, hgrows₁.trans hgrows₂, fun c' hc' => ?_⟩
      rcases List.mem_cons.mp hc' with rfl | hc'
      · exact ⟨k, hgrows₂.nodes hk, hgrows₂.edges hedge⟩
      · exact hrest c' hc'

/-- The search looks at every node. -/
theorem explore_spec
    (numbered : root.Numbered w.lookup excluded)
    (live : ∀ a, root.ComesTo w.lookup excluded a → (w.namespace? a.home).isSome)
    (hx : Explored w excluded root i g) (he : Exploring w.bindingCount (Finds w.lookup) fuel i g) :
    ∃ g', explore w excluded fuel i g = .ok g' ∧ Explored w excluded root g'.nodes.length g' ∧
      (g'.nodes.map Function.id).Nodup := by
  have hdone : ∀ {i fuel g}, Explored w excluded root i g →
      Exploring w.bindingCount (Finds w.lookup) fuel i g → g.nodes.length ≤ i →
      ∃ g', explore w excluded fuel i g = .ok g' ∧ Explored w excluded root g'.nodes.length g' ∧
        (g'.nodes.map Function.id).Nodup := fun hx he hle =>
    ⟨_, explore_of_length_le hle, ⟨hx.start, hx.comes, hx.sound, fun j hj =>
      hx.complete j (Nat.lt_of_lt_of_le hj hle)⟩, he.distinct⟩
  induction fuel generalizing i g with
  | zero => exact hdone hx he (he.length_le w.counts)
  | succ fuel ih =>
      by_cases hle : g.nodes.length ≤ i
      · exact hdone hx he hle
      · obtain ⟨f, hi⟩ : ∃ f, g.nodes[i]? = some f :=
          ⟨_, List.getElem?_eq_getElem (Nat.lt_of_not_le hle)⟩
        obtain ⟨ns, hns⟩ :=
          Option.isSome_iff_exists.mp (live f (hx.comes f (List.mem_of_getElem? hi)))
        have hhome : w.home f = .ok ns := by rw [World.home, hns]
        have hcalls : ∀ c ∈ callees w excluded f, f.CallsInto w.lookup excluded c :=
          fun c hc => mem_callees_iff.mp hc
        obtain ⟨hx', he', hgrows, hcallees⟩ := hx.addCallees numbered he hi hcalls
        rw [explore, hi]
        dsimp only
        rw [hhome]
        refine ih ⟨hx'.start, hx'.comes, hx'.sound, fun j hj a b ha hab => ?_⟩ he'.next
        rcases Nat.lt_succ_iff_lt_or_eq.mp hj with hj | rfl
        · exact hx'.complete j hj a b ha hab
        · rw [hgrows.nodes hi] at ha
          cases ha
          exact hcallees b (mem_callees_iff.mpr hab)

/-! ## The graph -/

/-- The graph of the functions that `root` comes to. -/
structure Depicts (g : CallGraph) (w : World) (excluded : List String) (root : Function) : Prop where
  distinct : (g.nodes.map Function.id).Nodup
  nodes : ∀ f, f ∈ g.nodes ↔ root.ComesTo w.lookup excluded f
  edges : ∀ j k : Nat, (j, k) ∈ g.edges ↔ ∃ a b, g.nodes[j]? = some a ∧ g.nodes[k]? = some b ∧
    a.CallsInto w.lookup excluded b

namespace Depicts

theorem inside (h : g.Depicts w excluded root) : g.Inside := by
  intro e he
  obtain ⟨a, b, ha, hb, -⟩ := (h.edges e.1 e.2).mp he
  exact ⟨(List.getElem?_eq_some_iff.mp ha).1, (List.getElem?_eq_some_iff.mp hb).1⟩

theorem transGen_iff (h : g.Depicts w excluded root) {j k : Nat} {a b : Function}
    (ha : g.nodes[j]? = some a) (hb : g.nodes[k]? = some b) :
    Relation.TransGen (fun v u => (v, u) ∈ g.edges) j k ↔
      Relation.TransGen (Function.CallsInto w.lookup excluded) a b := by
  constructor
  · intro hpath
    induction hpath generalizing b with
    | single hedge =>
        obtain ⟨a', b', ha', hb', hab⟩ := (h.edges _ _).mp hedge
        rw [ha] at ha'
        rw [hb] at hb'
        cases ha'
        cases hb'
        exact .single hab
    | tail _ hedge ih =>
        obtain ⟨c, b', hc, hb', hcb⟩ := (h.edges _ _).mp hedge
        rw [hb] at hb'
        cases hb'
        exact (ih hc).tail hcb
  · intro hpath
    have hplace : ∀ {c d}, c ∈ g.nodes → c.CallsInto w.lookup excluded d →
        ∃ l : Nat, g.nodes[l]? = some d := fun hc hcd =>
      List.getElem?_of_mem ((h.nodes _).mpr (((h.nodes _).mp hc).tail hcd))
    induction hpath generalizing k with
    | single hab => exact .single ((h.edges j k).mpr ⟨a, _, ha, hb, hab⟩)
    | @tail c b hac hcb ih =>
        have hc : c ∈ g.nodes := (h.nodes c).mpr
          (((h.nodes a).mp (List.mem_of_getElem? ha)).trans hac.to_reflTransGen)
        obtain ⟨l, hl⟩ := List.getElem?_of_mem hc
        exact (ih hl).tail ((h.edges l k).mpr ⟨c, b, hl, hb, hcb⟩)

/-- A cycle is found exactly if one can be come to. -/
theorem findCycle_eq_none_iff (h : g.Depicts w excluded root) :
    g.findCycle = none ↔ ¬ root.Cyclic w.lookup excluded := by
  rw [CallGraph.findCycle_eq_none_iff h.inside]
  constructor
  · rintro hnone ⟨f, hf, hcycle⟩
    obtain ⟨k, hk⟩ := List.getElem?_of_mem ((h.nodes f).mpr hf)
    exact hnone k ((h.transGen_iff hk hk).mpr hcycle)
  · intro hnot k hcycle
    obtain ⟨l, hedge, -⟩ := Relation.TransGen.head'_iff.mp hcycle
    obtain ⟨a, -, ha, -⟩ := (h.edges k l).mp hedge
    exact hnot ⟨a, (h.nodes a).mp (List.mem_of_getElem? ha), (h.transGen_iff ha ha).mp hcycle⟩

end Depicts

/-- If the namespaces are there, the graph is found. -/
theorem build_depicts
    (numbered : root.Numbered w.lookup excluded)
    (live : ∀ a, root.ComesTo w.lookup excluded a → (w.namespace? a.home).isSome) :
    ∃ g, build w root excluded = .ok g ∧ g.Depicts w excluded root := by
  have hstart : Explored w excluded root 0 ⟨[root], []⟩ :=
    ⟨List.mem_singleton_self _, fun f hf => by rw [List.mem_singleton.mp hf], nofun, nofun⟩
  have hfuel : Exploring w.bindingCount (Finds w.lookup) (w.bindingCount + 1) 0 ⟨[root], []⟩ :=
    ⟨Nat.le_of_eq (Nat.zero_add _).symm, List.nodup_singleton _, nofun, List.cons_ne_nil _ _⟩
  obtain ⟨g, hg, hx, hdistinct⟩ := explore_spec numbered live hstart hfuel
  have hcalls : ∀ {j : Nat} {a b}, g.nodes[j]? = some a → a.CallsInto w.lookup excluded b →
      ∃ k : Nat, g.nodes[k]? = some b ∧ (j, k) ∈ g.edges := fun ha hab =>
    hx.complete _ (List.getElem?_eq_some_iff.mp ha).1 _ _ ha hab
  refine ⟨g, hg, hdistinct, fun f => ⟨hx.comes f, fun hf => ?_⟩, fun j k => ⟨fun he => ?_, ?_⟩⟩
  · induction hf with
    | refl => exact hx.start
    | tail _ hcall ih =>
        obtain ⟨j, hj⟩ := List.getElem?_of_mem ih
        obtain ⟨k, hk, -⟩ := hcalls hj hcall
        exact List.mem_of_getElem? hk
  · exact hx.sound (j, k) he
  · rintro ⟨a, b, ha, hb, hab⟩
    obtain ⟨l, hl, he⟩ := hcalls ha hab
    have hlk : l = k := (List.getElem?_inj (List.getElem?_eq_some_iff.mp hl).1 hdistinct.of_map).mp
      (hl.trans hb.symm)
    exact hlk ▸ he

end Graft.CallGraph
