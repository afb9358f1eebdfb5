import Graft.Proofs.Exploring
import Graft.Proofs.Finished
import Mathlib.Data.List.Chain

/-!
# Reported cycles

Of a component that can reach itself all functions are reported, the one that was met first in front
and again at the end. They reach each other by calls, but one need not call the next: the search lists
a tree of calls, in which two functions may hang on the same one. If no function of the component calls
two others of it, the tree is a path, and the report is a closed walk along calls.
-/

namespace Graft

namespace CallGraph

variable {successors : Nat → List Nat} {root u v : Nat} {new members : List Nat}

/-! ## Walks in a graph -/

/-- No node of the list has edges to two others of it. -/
def Unbranched (successors : Nat → List Nat) (c : List Nat) : Prop :=
  ∀ a ∈ c, ∀ x ∈ c, ∀ y ∈ c, x ∈ successors a → y ∈ successors a → x ≠ a → y ≠ a → x = y

theorem Unbranched.mono {c d : List Nat} (h : Unbranched successors d) (hsub : c ⊆ d) :
    Unbranched successors c := fun a ha x hx y hy =>
  h a (hsub ha) x (hsub hx) y (hsub hy)

/-- A forest without branches is a path. -/
theorem Search.Forest.isChain (h : Search.Forest successors v new) (distinct : (v :: new).Nodup)
    (unbranched : Unbranched successors (v :: new)) : (v :: new).IsChain (Edge successors) := by
  induction h with
  | nil v => exact .singleton v
  | @cons v u newer new hedge _ hnew ih _ =>
      obtain ⟨hv, hrest⟩ := List.nodup_cons.mp distinct
      have hu : u ∈ v :: ((u :: newer) ++ new) := List.mem_cons_of_mem v List.mem_cons_self
      have huv : u ≠ v := fun he => hv (he ▸ List.mem_cons_self)
      -- A second tree would begin with another successor of `v`.
      obtain rfl : new = [] := by
        cases hnew with
        | nil => rfl
        | @cons _ x others rest hx _ _ =>
            have hmem : x ∈ (x :: others) ++ rest := List.mem_cons_self
            have hxv : x ≠ v := fun he => hv (List.mem_append_right _ (he ▸ hmem))
            have hux : u = x := unbranched v List.mem_cons_self u hu x
              (List.mem_cons_of_mem v (List.mem_append_right _ hmem)) hedge hx huv hxv
            exact absurd hux ((List.nodup_append.mp hrest).2.2 u List.mem_cons_self x hmem)
      rw [List.append_nil] at hrest unbranched ⊢
      exact .cons_cons hedge (ih hrest (unbranched.mono (List.subset_cons_self v _)))

/-- From a node of the latest component a path to the root comes over an edge of the component. -/
theorem exists_edge_to_root {c : List Nat} {rest : List (List Nat)}
    (chained : Search.Chained successors (c :: rest)) (hroot : root ∉ rest.flatten)
    (hu : u ∈ c) (hne : u ≠ root) (hpath : Path successors u root) :
    ∃ a ∈ c, a ≠ root ∧ root ∈ successors a := by
  induction hpath using Relation.ReflTransGen.head_induction_on with
  | refl => exact absurd rfl hne
  | @head a b hedge hback ih =>
      by_cases hb : b = root
      · exact ⟨a, hu, hne, hb ▸ hedge⟩
      · rcases chained.1 a hu b hedge with hmem | hmem
        · exact ih hmem hb
        · exact absurd (chained.2.mem_of_path hmem hback) hroot

/-- The edge of a node to the front of a path without branches closes the path. -/
theorem isChain_closed {a : Nat} (chain : (root :: members).IsChain (Edge successors))
    (distinct : (root :: members).Nodup) (unbranched : Unbranched successors (root :: members))
    (ha : a ∈ root :: members) (hne : members ≠ [] → a ≠ root) (hedge : root ∈ successors a) :
    ((root :: members) ++ [root]).IsChain (Edge successors) := by
  obtain ⟨before, after, hsplit⟩ := List.append_of_mem ha
  cases after with
  | nil =>
      refine List.isChain_append.mpr ⟨chain, .singleton root, ?_⟩
      rw [hsplit, List.getLast?_concat]
      rintro _ ⟨⟩ _ ⟨⟩
      exact hedge
  | cons y rest =>
      -- The node behind it would be a second successor.
      have hy : y ∈ members := by
        cases before with
        | nil =>
            obtain ⟨-, rfl⟩ := List.cons.inj hsplit
            exact List.mem_cons_self
        | cons b before =>
            obtain ⟨-, rfl⟩ := List.cons.inj hsplit
            simp
      have hyroot : root ≠ y := fun he => (List.nodup_cons.mp distinct).1 (he ▸ hy)
      have hya : y ≠ a := by
        rintro rfl
        rw [hsplit, List.nodup_append] at distinct
        exact (List.nodup_cons.mp distinct.2.1).1 List.mem_cons_self
      have hstep : y ∈ successors a := List.isChain_iff_forall_rel_of_append_cons_cons.mp chain hsplit
      exact absurd (unbranched a ha root List.mem_cons_self y (List.mem_cons_of_mem root hy) hedge hstep
        (hne (List.ne_nil_of_mem hy)).symm hya) hyroot

theorem Search.Chained.of_append {before rest : List (List Nat)}
    (h : Search.Chained successors (before ++ rest)) : Search.Chained successors rest := by
  induction before with
  | nil => exact h
  | cons c before ih => exact ih h.2

variable {g : CallGraph} {path : List String}

/-- What is reported is a component whose nodes come to each other along edges. Without branches it is
a closed walk. -/
theorem findCycle_eq_some (inside : g.Inside) (h : g.findCycle = some path) :
    ∃ root members, path = ((root :: members) ++ [root]).map g.nameAt ∧
      (root :: members).Nodup ∧
      (∀ a ∈ root :: members, ∀ b ∈ root :: members, Relation.TransGen (Edge g.successors) a b) ∧
      (Unbranched g.successors (root :: members) →
        ((root :: members) ++ [root]).IsChain (Edge g.successors)) := by
  obtain ⟨hchained, hstrong, -, hapart⟩ := components_spec inside
  rw [findCycle, Option.map_eq_some_iff] at h
  obtain ⟨c, hfind, rfl⟩ := h
  have hc := List.mem_of_find?_eq_some hfind
  have hlooped := List.find?_some hfind
  obtain ⟨root, members, rfl, hs⟩ := hstrong c hc
  obtain ⟨before, rest, hsplit⟩ := List.append_of_mem (List.mem_reverse.mpr hc)
  rw [hsplit] at hchained hapart
  rw [List.flatten_append, List.flatten_cons] at hapart
  obtain ⟨hdistinct, -, hout⟩ := List.nodup_append.mp (List.nodup_append.mp hapart).2.1
  have hroot : root ∉ rest.flatten := fun hmem => hout root List.mem_cons_self root hmem rfl
  -- Some node of the component, another one than the root if there is one, has an edge to the root.
  obtain ⟨a, ha, hne, hedge⟩ : ∃ a ∈ root :: members, (members ≠ [] → a ≠ root) ∧
      root ∈ g.successors a := by
    cases members with
    | nil =>
        exact ⟨root, List.mem_cons_self, fun hnil => absurd rfl hnil,
          mem_successors.mpr (List.contains_iff_mem.mp hlooped)⟩
    | cons m members =>
        have hm : m ≠ root := fun he => hs.distinct (he ▸ List.mem_cons_self)
        obtain ⟨a, ha, hne, hedge⟩ := exists_edge_to_root hchained.of_append hroot
          (List.mem_cons_of_mem root List.mem_cons_self) hm (hs.back m List.mem_cons_self)
        exact ⟨a, ha, fun _ => hne, hedge⟩
  have hbelow : ∀ x ∈ root :: members, Path g.successors root x := fun x hx =>
    (List.mem_cons.mp hx).elim (fun he => he ▸ .refl) (hs.below x)
  have hback : ∀ x ∈ root :: members, Path g.successors x root := fun x hx =>
    (List.mem_cons.mp hx).elim (fun he => he ▸ .refl) (hs.back x)
  have hloop : Relation.TransGen (Edge g.successors) root root := .tail' (hbelow a ha) hedge
  refine ⟨root, members, ?_, hdistinct, fun x hx y hy => ?_, fun unbranched => ?_⟩
  · rw [List.map_append]
    rfl
  · exact (Relation.TransGen.trans_right (hback x hx) hloop).trans_left (hbelow y hy)
  · exact isChain_closed (hs.forest.isChain hdistinct unbranched) hdistinct unbranched ha hne hedge

end CallGraph

/-! ## Walks along calls -/

namespace Function

/-- A call of the function, of a bare name outside the excluded ones, comes to the function with the
number of the other one. -/
def CallsTo (w : World) (excluded : List String) (f h : Function) : Prop :=
  ∃ k, f.CallsInto w.lookup excluded k ∧ k.id = h.id

/-- No function of the list calls two others of it. -/
def Unbranched (w : World) (excluded : List String) (fs : List Function) : Prop :=
  ∀ f ∈ fs, ∀ g ∈ fs, ∀ h ∈ fs, f.CallsTo w excluded g → f.CallsTo w excluded h →
    g.id ≠ f.id → h.id ≠ f.id → g.id = h.id

/-- Two functions are too few for a branch. -/
theorem unbranched_of_length_le_two {w : World} {excluded : List String} {fs : List Function}
    (h : fs.length ≤ 2) : Unbranched w excluded fs := by
  intro f hf g hg k hk _ _ hgf hkf
  match fs, h with
  | [], _ => exact absurd hf List.not_mem_nil
  | [a], _ =>
      rw [List.mem_singleton.mp hf, List.mem_singleton.mp hg] at hgf
      exact absurd rfl hgf
  | [a, b], _ =>
      simp only [List.mem_cons, List.not_mem_nil, or_false] at hf hg hk
      grind

end Function

namespace CallGraph

variable {w : World} {excluded : List String} {f : Function} {g : CallGraph} {i fuel : Nat}

/-- The function at a place. -/
def nodeAt (g : CallGraph) (v : Nat) : Function := g.nodes.getD v default

theorem getElem?_nodeAt {v : Nat} (h : v < g.nodes.length) :
    g.nodes[v]? = some (g.nodeAt v) := by
  rw [nodeAt, List.getD_eq_getElem?_getD, List.getElem?_eq_getElem h, Option.getD_some]

theorem nameAt_eq {v : Nat} (h : v < g.nodes.length) : g.nameAt v = (g.nodeAt v).name := by
  rw [nameAt, getElem?_nodeAt h]
  rfl

/-- The nodes are different functions, and the edges are calls. -/
structure Told (w : World) (excluded : List String) (g : CallGraph) : Prop where
  distinct : (g.nodes.map Function.id).Nodup
  edges : ∀ e ∈ g.edges, ∃ a b, g.nodes[e.1]? = some a ∧ g.nodes[e.2]? = some b ∧
    a.CallsTo w excluded b

namespace Told

theorem addCallee {c : Function} (h : g.Told w excluded) (hi : g.nodes[i]? = some f)
    (hcall : f.CallsInto w.lookup excluded c) :
    (g.addCallee i c).Told w excluded ∧ (g.addCallee i c).nodes[i]? = some f := by
  rw [CallGraph.addCallee]
  split
  · next k hk =>
      obtain ⟨hlt, hid, -⟩ := List.findIdx?_eq_some_iff_getElem.mp hk
      refine ⟨⟨h.distinct, fun e he => ?_⟩, hi⟩
      rcases List.mem_append.mp he with he | he
      · exact h.edges e he
      · rw [List.mem_singleton.mp he]
        exact ⟨f, g.nodes[k], hi, List.getElem?_eq_getElem hlt, c, hcall,
          (of_decide_eq_true hid).symm⟩
  · next hnew =>
      have hkept : ∀ {k : Nat} {a : Function}, g.nodes[k]? = some a →
          (g.nodes ++ [c])[k]? = some a := fun hk => by
        rw [List.getElem?_append_left (List.getElem?_eq_some_iff.mp hk).1, hk]
      refine ⟨⟨?_, fun e he => ?_⟩, hkept hi⟩
      · rw [List.map_append, List.nodup_append]
        refine ⟨h.distinct, List.nodup_singleton _, fun x hx y hy hxy => ?_⟩
        obtain ⟨a, ha, rfl⟩ := List.mem_map.mp hx
        have hfresh := List.findIdx?_eq_none_iff.mp hnew a ha
        rw [List.map_singleton, List.mem_singleton] at hy
        exact absurd (hxy.trans hy) (of_decide_eq_false hfresh)
      · rcases List.mem_append.mp he with he | he
        · obtain ⟨a, b, ha, hb, hab⟩ := h.edges e he
          exact ⟨a, b, hkept ha, hkept hb, hab⟩
        · rw [List.mem_singleton.mp he]
          exact ⟨f, c, hkept hi, List.getElem?_concat_length, c, hcall, rfl⟩

theorem addCallees {cs : List Function} (h : g.Told w excluded) (hi : g.nodes[i]? = some f)
    (hcalls : ∀ c ∈ cs, f.CallsInto w.lookup excluded c) :
    (cs.foldl (fun g c => g.addCallee i c) g).Told w excluded := by
  induction cs generalizing g with
  | nil => exact h
  | cons c rest ih =>
      obtain ⟨h', hi'⟩ := h.addCallee hi (hcalls c List.mem_cons_self)
      exact ih h' hi' fun c' hc' => hcalls c' (List.mem_cons_of_mem c hc')

theorem explore {g' : CallGraph} (h : g.Told w excluded)
    (hg : CallGraph.explore w excluded fuel i g = .ok g') : g'.Told w excluded := by
  induction fuel generalizing i g with
  | zero =>
      rw [CallGraph.explore] at hg
      split at hg
      · cases hg
      · cases hg
        exact h
  | succ fuel ih =>
      rw [CallGraph.explore] at hg
      split at hg
      · cases hg
        exact h
      · next f hi =>
          split at hg
          · cases hg
          · exact ih (h.addCallees hi fun c hc => mem_callees_iff.mp hc) hg

theorem build (hg : CallGraph.build w f excluded = .ok g) : g.Told w excluded :=
  have start : Told w excluded ⟨[f], []⟩ :=
    ⟨List.nodup_singleton f.id, fun _ he => absurd he List.not_mem_nil⟩
  start.explore hg

theorem inside (h : g.Told w excluded) : g.Inside := by
  intro e he
  obtain ⟨a, b, ha, hb, -⟩ := h.edges e he
  exact ⟨(List.getElem?_eq_some_iff.mp ha).1, (List.getElem?_eq_some_iff.mp hb).1⟩

theorem callsTo {v u : Nat} (h : g.Told w excluded) (hedge : u ∈ g.successors v) :
    (g.nodeAt v).CallsTo w excluded (g.nodeAt u) := by
  obtain ⟨a, b, ha, hb, hab⟩ := h.edges _ (mem_successors.mp hedge)
  rw [getElem?_nodeAt (h.inside _ (mem_successors.mp hedge)).1] at ha
  rw [getElem?_nodeAt (h.inside _ (mem_successors.mp hedge)).2] at hb
  cases ha
  cases hb
  exact hab

/-- Nodes at different places are different functions. -/
theorem eq_of_id_eq {v u : Nat} (h : g.Told w excluded) (hv : v < g.nodes.length)
    (hu : u < g.nodes.length) (hid : (g.nodeAt v).id = (g.nodeAt u).id) : v = u := by
  refine (List.getElem?_inj (by rwa [List.length_map]) h.distinct).mp ?_
  rw [List.getElem?_map, List.getElem?_map, getElem?_nodeAt hv, getElem?_nodeAt hu]
  exact congrArg some hid

end Told

/-- A closed walk through at most two places can be walked in any order. -/
theorem isChain_of_perm {α : Type} {R : α → α → Prop} {xs ys : List α} (hle : xs.length ≤ 2)
    (hperm : ys.Perm xs) (h : (xs ++ xs.take 1).IsChain R) : (ys ++ ys.take 1).IsChain R := by
  match xs, hle with
  | [], _ =>
      rw [List.perm_nil.mp hperm]
      exact .nil
  | [a], _ =>
      rw [List.perm_singleton.mp hperm]
      exact h
  | [a, b], _ =>
      obtain ⟨c, d, rfl⟩ := List.length_eq_two.mp hperm.length_eq
      obtain ⟨hab, hba, -⟩ : R a b ∧ R b a ∧ True := by simpa using h
      have hc : c = a ∨ c = b := by simpa using hperm.subset List.mem_cons_self
      rcases hc with rfl | rfl
      · obtain rfl : d = b := by simpa using hperm
        exact h
      · have hd := hperm.trans (List.Perm.swap c a [])
        obtain rfl : d = a := by simpa using hd
        exact .cons_cons hba (.cons_cons hab (.singleton c))

/-- A reported cycle names, with the first one again at the end, different functions that come to each
other by calls. If none of them calls two others of them, each one calls the next; of two functions
this holds in any order. -/
theorem findCycle_closed_walk (w : World) (root : Function) (excluded : List String) (g : CallGraph)
    (path : List String) (hg : build w root excluded = .ok g) (hpath : g.findCycle = some path) :
    ∃ fs : List Function, path = (fs ++ fs.take 1).map Function.name ∧ 2 ≤ path.length ∧
      (∀ f ∈ fs, f ∈ g.nodes) ∧ (fs.map Function.id).Nodup ∧
      (∀ f ∈ fs, ∀ h ∈ fs, Relation.TransGen (Function.CallsTo w excluded) f h) ∧
      (Function.Unbranched w excluded fs →
        (fs ++ fs.take 1).IsChain (Function.CallsTo w excluded)) ∧
      (fs.length ≤ 2 → ∀ order : List Function, order.Perm fs →
        (order ++ order.take 1).IsChain (Function.CallsTo w excluded)) := by
  have told := Told.build hg
  obtain ⟨first, members, rfl, hdistinct, hcomes, hchain⟩ := findCycle_eq_some told.inside hpath
  have hlt : ∀ v ∈ first :: members, v < g.nodes.length := by
    intro v hv
    obtain ⟨u, hedge, -⟩ := Relation.TransGen.head'_iff.mp (hcomes v hv v hv)
    exact (told.inside _ (mem_successors.mp hedge)).1
  -- numbers of functions tell the nodes apart, so no branch of the calls is one of the nodes
  have hwalk : Function.Unbranched w excluded ((first :: members).map g.nodeAt) →
      ((first :: members).map g.nodeAt ++ [g.nodeAt first]).IsChain
        (Function.CallsTo w excluded) := by
    intro unbranched
    have hnodes := hchain fun a ha x hx y hy hax hay hxa hya =>
      told.eq_of_id_eq (hlt x hx) (hlt y hy) (unbranched _ (List.mem_map_of_mem ha) _
        (List.mem_map_of_mem hx) _ (List.mem_map_of_mem hy) (told.callsTo hax) (told.callsTo hay)
        (fun hid => hxa (told.eq_of_id_eq (hlt x hx) (hlt a ha) hid))
        fun hid => hya (told.eq_of_id_eq (hlt y hy) (hlt a ha) hid))
    rw [← List.map_singleton, ← List.map_append, List.isChain_map]
    exact hnodes.imp fun _ _ hedge => told.callsTo hedge
  refine ⟨(first :: members).map g.nodeAt, ?_, ?_, ?_, ?_, ?_, hwalk, fun hle order hperm => ?_⟩
  · rw [List.map_cons, List.take_succ_cons, List.take_zero, ← List.map_cons, ← List.map_singleton,
      ← List.map_append, List.map_map]
    refine List.map_congr_left fun v hv => nameAt_eq (hlt v ?_)
    rcases List.mem_append.mp hv with hv | hv
    · exact hv
    · exact List.mem_singleton.mp hv ▸ List.mem_cons_self
  · simp
  · intro f hf
    obtain ⟨v, hv, rfl⟩ := List.mem_map.mp hf
    exact List.mem_of_getElem? (getElem?_nodeAt (hlt v hv))
  · rw [List.map_map]
    exact hdistinct.map_on fun v hv u hu => told.eq_of_id_eq (hlt v hv) (hlt u hu)
  · intro f hf h hh
    obtain ⟨v, hv, rfl⟩ := List.mem_map.mp hf
    obtain ⟨u, hu, rfl⟩ := List.mem_map.mp hh
    exact (hcomes v hv u hu).lift g.nodeAt fun _ _ => told.callsTo
  · exact isChain_of_perm hle hperm (hwalk (Function.unbranched_of_length_le_two hle))

/-- Two functions that call each other. -/
def pairText : SourceText := ⟨"m.fst", "fn a(x) { b(x) }\nfn b(x) { a(x) }\n"⟩

def pairFirst : Function := Pass.loadAt pairText 2 ⟨0, 16⟩

def pairWorld : World :=
  { nextId := 4
    namespaces := [(1, { name := "m"
                         globals := [("a", .callable (.function pairFirst)),
                           ("b", .callable (.function (Pass.loadAt pairText 3 ⟨17, 33⟩)))] })] }

theorem findCycle_closed_walk_pair :
    ∃ g fs, build pairWorld pairFirst [] = .ok g ∧ g.findCycle = some ["a", "b", "a"] ∧
      (fs ++ fs.take 1).map Function.name = ["a", "b", "a"] ∧
      (∀ f ∈ fs, ∀ h ∈ fs, Relation.TransGen (Function.CallsTo pairWorld []) f h) ∧
      Function.Unbranched pairWorld [] fs ∧
      (fs ++ fs.take 1).IsChain (Function.CallsTo pairWorld []) := by
  have hcheck : (build pairWorld pairFirst []).toOption.bind findCycle = some ["a", "b", "a"] := by
    decide +kernel
  obtain ⟨g, hg, hpath⟩ := Option.bind_eq_some_iff.mp hcheck
  cases hb : build pairWorld pairFirst [] with
  | error e =>
      rw [hb] at hg
      cases hg
  | ok g' =>
      rw [hb] at hg
      cases hg
      obtain ⟨fs, hnames, -, -, -, hcomes, hchain, -⟩ :=
        findCycle_closed_walk pairWorld pairFirst [] g _ hb hpath
      have hlength : fs.length ≤ 2 := by
        have h := congrArg List.length hnames
        rw [List.length_map, List.length_append, List.length_take] at h
        have h : 3 = fs.length + min 1 fs.length := h
        omega
      have unbranched := @Function.unbranched_of_length_le_two pairWorld [] fs hlength
      exact ⟨g, fs, rfl, hpath, hnames.symm, hcomes, unbranched, hchain unbranched⟩

/-- A function that calls two others, which call it back. -/
def starText : SourceText :=
  ⟨"m.fst", "fn a(x) { b(x) + c(x) }\nfn b(x) { a(x) }\nfn c(x) { a(x) }\n"⟩

def starFirst : Function := Pass.loadAt starText 2 ⟨0, 23⟩

def starSecond : Function := Pass.loadAt starText 3 ⟨24, 40⟩

def starThird : Function := Pass.loadAt starText 4 ⟨41, 57⟩

def starWorld : World :=
  { nextId := 5
    namespaces := [(1, { name := "m"
                         globals := [("a", .callable (.function starFirst)),
                           ("b", .callable (.function starSecond)),
                           ("c", .callable (.function starThird))] })] }

/-- One function of the reported cycle does not call the next. -/
theorem findCycle_not_closed_walk :
    ∃ g, build starWorld starFirst [] = .ok g ∧
      g.nodes.map Function.id = [starFirst.id, starSecond.id, starThird.id] ∧
      g.nodes.map Function.name = ["a", "b", "c"] ∧
      g.findCycle = some ["a", "b", "c", "a"] ∧ ¬ starSecond.CallsTo starWorld [] starThird := by
  have hcheck : ((build starWorld starFirst []).toOption.map fun g =>
      (g.nodes.map Function.id, g.nodes.map Function.name, g.findCycle)) =
      some ([2, 3, 4], ["a", "b", "c"], some ["a", "b", "c", "a"]) := by decide +kernel
  obtain ⟨g, hg, hfound⟩ := Option.map_eq_some_iff.mp hcheck
  cases hb : build starWorld starFirst [] with
  | error e =>
      rw [hb] at hg
      cases hg
  | ok g' =>
      rw [hb] at hg
      cases hg
      rw [Prod.mk.injEq, Prod.mk.injEq] at hfound
      refine ⟨g, rfl, hfound.1, hfound.2.1, hfound.2.2, ?_⟩
      rintro ⟨k, ⟨n, c, -, hcalls, hl, hc⟩, hid⟩
      have hsites : starSecond.definition.body.callSites.map CallSite.callee = [⟨"a", []⟩] := by
        decide +kernel
      rw [Block.calls_iff, hsites, List.mem_singleton] at hcalls
      cases hcalls
      cases hl
      cases hc
      cases hid

end CallGraph

end Graft
