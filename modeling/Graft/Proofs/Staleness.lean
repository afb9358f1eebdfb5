import Graft.Proofs.Finished
import Graft.Proofs.Keys

/-!
# When keys go stale

A key is stale once a namespace that it depends on was changed or is gone. That is so exactly if the key
made anew has another digest: as long as the key is not stale, the search for the namespaces comes to
the same ones, and once it is stale, the record that is hashed tells of something else.
-/

namespace Graft

/-! ## Changes outside of passes -/

/-- What changes a namespace for good. -/
inductive Change where
  | define (id : NamespaceId) (name : String) (g : Global)
  | remove (id : NamespaceId) (name : String)
  | drop (id : NamespaceId)

namespace Change

def after : Change → World → World
  | define id name g, w => w.define id name g
  | remove id name, w => w.remove id name
  | drop id, w => w.drop id

/-- The world after some changes, the first one first. -/
def afterAll (changes : List Change) (w : World) : World := changes.foldl (fun w c => c.after w) w

end Change

namespace World

/-- `v` comes after `w` and at most `count` changes: namespaces that are gone stay away, and what
changed a binding was counted. -/
structure Aged (count : Nat) (w v : World) : Prop where
  gone : ∀ {i}, w.namespace? i = none → v.namespace? i = none
  counted : ∀ {i ns ns'}, w.namespace? i = some ns → v.namespace? i = some ns' →
    ns.generation ≤ ns'.generation ∧ ns'.generation ≤ ns.generation + count ∧
      (ns.generation = ns'.generation → ns.globals = ns'.globals)

namespace Aged

variable {u v w : World} {m n : Nat}

theorem refl (w : World) : w.Aged 0 w where
  gone hi := hi
  counted hns hns' := by
    rw [hns] at hns'
    obtain rfl := Option.some.inj hns'
    exact ⟨Nat.le_refl _, Nat.le_refl _, fun _ => rfl⟩

theorem trans (h : u.Aged m v) (h' : v.Aged n w) : u.Aged (m + n) w where
  gone hi := h'.gone (h.gone hi)
  counted {i ns ns''} hu hw := by
    cases hv : v.namespace? i with
    | none =>
        rw [h'.gone hv] at hw
        cases hw
    | some ns' =>
        obtain ⟨hle, hmost, heq⟩ := h.counted hu hv
        obtain ⟨hle', hmost', heq'⟩ := h'.counted hv hw
        refine ⟨by omega, by omega, fun hgeneration => ?_⟩
        rw [heq (by omega), heq' (by omega)]

/-- One namespace was changed, and the change counted if it was one. -/
theorem update (w : World) (id : NamespaceId) {f : Namespace → Namespace}
    (h : ∀ ns, f ns = ns ∨ (f ns).generation = ns.generation + 1) : w.Aged 1 (w.update id f) where
  gone {i} hi := by
    rw [namespace?_update, hi]
    split <;> rfl
  counted {i ns ns'} hns hns' := by
    rw [namespace?_update, hns] at hns'
    split at hns'
    · obtain rfl := Option.some.inj hns'
      rcases h ns with hsame | hnext
      · rw [hsame]
        exact ⟨Nat.le_refl _, Nat.le_succ _, fun _ => rfl⟩
      · rw [hnext]
        exact ⟨Nat.le_succ _, Nat.le_refl _, fun h => absurd h (Nat.succ_ne_self _).symm⟩
    · obtain rfl := Option.some.inj hns'
      exact ⟨Nat.le_refl _, Nat.le_succ _, fun _ => rfl⟩

theorem drop (w : World) (id : NamespaceId) : w.Aged 1 (w.drop id) where
  gone {i} hi := by
    rw [namespace?_drop, hi]
    split <;> rfl
  counted {i ns ns'} hns hns' := by
    rw [namespace?_drop] at hns'
    split at hns'
    · cases hns'
    · rw [hns] at hns'
      obtain rfl := Option.some.inj hns'
      exact ⟨Nat.le_refl _, Nat.le_succ _, fun _ => rfl⟩

theorem after (c : Change) (w : World) : w.Aged 1 (c.after w) := by
  cases c with
  | define id name g => exact update w id fun ns => .inr (ns.generation_define name g)
  | remove id name =>
      refine update w id (f := fun ns => ns.remove name) fun ns => ?_
      rw [Namespace.remove]
      split
      · exact .inr rfl
      · exact .inl rfl
  | drop id => exact drop w id

theorem afterAll (changes : List Change) (w : World) :
    w.Aged changes.length (Change.afterAll changes w) := by
  induction changes generalizing w with
  | nil => exact refl w
  | cons c rest ih =>
      rw [List.length_cons, Nat.add_comm]
      exact (after c w).trans (ih (c.after w))

end Aged

/-! ## What the search comes to -/

/-- The search from the given namespaces comes to the namespace, which is there. -/
inductive Leads (w : World) (ids : List NamespaceId) : NamespaceId → Prop
  | start {i} : i ∈ ids → (w.namespace? i).isSome → Leads w ids i
  | next {i j} : Leads w ids i → j ∈ w.neighbours i → (w.namespace? j).isSome → Leads w ids j

variable {w v : World} {ids ids' seen : List NamespaceId} {i : NamespaceId}

theorem Leads.isSome (h : w.Leads ids i) : (w.namespace? i).isSome := by
  cases h with
  | start _ hlive => exact hlive
  | next _ _ hlive => exact hlive

/-- The search goes alike if what it looks at is alike. -/
theorem Leads.congr (h : w.Leads ids i) (hids : ids ⊆ ids')
    (hlive : ∀ i, w.Leads ids i → (v.namespace? i).isSome)
    (hnext : ∀ i, w.Leads ids i → w.neighbours i ⊆ v.neighbours i) : v.Leads ids' i := by
  induction h with
  | start hi hw => exact .start (hids hi) (hlive _ (.start hi hw))
  | next h hj hw ih => exact .next ih (hnext _ h hj) (hlive _ (.next h hj hw))

theorem leads_spread (rounds : Nat) (h : ∀ i ∈ seen, w.Leads ids i) :
    ∀ i ∈ w.spread rounds seen, w.Leads ids i := by
  induction rounds generalizing seen with
  | zero => exact h
  | succ rounds ih =>
      refine ih fun i hi => ?_
      rcases mem_addLive.mp hi with hi | ⟨hi, hlive⟩
      · exact h i hi
      · obtain ⟨j, hj, hi⟩ := List.mem_flatMap.mp hi
        exact .next (h j hj) hi hlive

theorem mem_reachable_iff_leads : i ∈ w.reachable ids ↔ w.Leads ids i := by
  constructor
  · intro h
    refine leads_spread _ (fun j hj => ?_) i (mem_reachable_iff.mp h)
    rcases mem_addLive.mp hj with hj | ⟨hj, hlive⟩
    · exact absurd hj List.not_mem_nil
    · exact .start hj hlive
  · intro h
    induction h with
    | start hi hlive => exact mem_reachable hi hlive
    | next _ hj hlive ih => exact enclosed_reachable w ids _ ih _ hj hlive

theorem nodup_spread (rounds : Nat) (h : seen.Nodup) : (w.spread rounds seen).Nodup := by
  induction rounds generalizing seen with
  | zero => exact h
  | succ rounds ih => exact ih (nodup_addLive h)

/-- The namespaces come in increasing order, each once. -/
theorem increasing_reachable (w : World) (ids : List NamespaceId) :
    (w.reachable ids).Pairwise fun i j => i < j := by
  have hsorted : (w.reachable ids).Pairwise fun i j => decide (i ≤ j) = true :=
    List.pairwise_mergeSort (by simpa using fun _ _ _ => Nat.le_trans)
      (by simpa using Nat.le_total) _
  have hnodup : (w.reachable ids).Nodup :=
    (List.mergeSort_perm _ _).nodup_iff.mpr (nodup_spread _ (nodup_addLive List.nodup_nil))
  refine (hsorted.and hnodup).imp fun h => ?_
  exact Nat.lt_of_le_of_ne (of_decide_eq_true h.1) h.2

/-- Searches that come to the same namespaces find them in the same order. -/
theorem reachable_eq_of_leads (h : ∀ i, w.Leads ids i ↔ v.Leads ids' i) :
    w.reachable ids = v.reachable ids' := by
  have hperm : (w.reachable ids).Perm (v.reachable ids') := by
    refine (List.perm_ext_iff_of_nodup ?_ ?_).mpr fun i => ?_
    · exact (increasing_reachable w ids).imp Nat.ne_of_lt
    · exact (increasing_reachable v ids').imp Nat.ne_of_lt
    · rw [mem_reachable_iff_leads, mem_reachable_iff_leads, h]
  exact hperm.eq_of_pairwise (fun i j _ _ hij hji => absurd hij (Nat.lt_asymm hji))
    (increasing_reachable w ids) (increasing_reachable v ids')

/-! ## Keys made anew -/

variable {f : Function} {overrides overrides' : List (String × Callable)}

/-- The namespaces that the search for a key starts from. -/
def starts (f : Function) (overrides : List (String × Callable)) : List NamespaceId :=
  f.home :: overrides.flatMap fun (_, c) => c.homes

theorem generations_eq_some {n : Nat} :
    w.generations i = some n ↔ ∃ ns, w.namespace? i = some ns ∧ ns.generation = n := by
  rw [generations, Option.map_eq_some_iff]

theorem isStale_iff (now : Generations) :
    (w.cacheKey f overrides).isStale now = true ↔
      ∃ entry ∈ w.dependsOn f overrides, now entry.1 ≠ some entry.2 := by
  rw [cacheKey_eq, CacheKey.isStale, List.any_eq_true]
  simp only [decide_eq_true_eq]

/-- Searches that come to the same namespaces of the same generations make keys that depend on the
same. -/
theorem dependsOn_eq_of_leads
    (h : ∀ i, w.Leads (starts f overrides) i ↔ v.Leads (starts f overrides') i)
    (hgeneration : ∀ i, w.Leads (starts f overrides) i → w.generations i = v.generations i) :
    w.dependsOn f overrides = v.dependsOn f overrides' := by
  have hreachable : w.reachable (starts f overrides) = v.reachable (starts f overrides') :=
    reachable_eq_of_leads h
  rw [dependsOn, dependsOn]
  change (w.reachable (starts f overrides)).filterMap _ =
    (v.reachable (starts f overrides')).filterMap _
  rw [← hreachable]
  refine List.filterMap_congr fun i hi => ?_
  rw [hgeneration i (mem_reachable_iff_leads.mp hi)]

/-- As long as a key is not stale, the key made anew depends on the same. -/
theorem Aged.dependsOn_eq {count : Nat} (h : w.Aged count v)
    (hfresh : ∀ entry ∈ w.dependsOn f overrides, v.generations entry.1 = some entry.2) :
    w.dependsOn f overrides = v.dependsOn f overrides := by
  -- Where the search comes to, nothing was changed.
  have hkept : ∀ i, w.Leads (starts f overrides) i → ∃ ns ns', w.namespace? i = some ns ∧
      v.namespace? i = some ns' ∧ ns.generation = ns'.generation ∧ ns.globals = ns'.globals := by
    intro i hi
    obtain ⟨ns, hns⟩ := Option.isSome_iff_exists.mp hi.isSome
    have hnow := hfresh (i, ns.generation) (mem_dependsOn.mpr
      ⟨mem_reachable_iff_leads.mpr hi, generations_eq_some.mpr ⟨ns, hns, rfl⟩⟩)
    obtain ⟨ns', hns', hgeneration⟩ := generations_eq_some.mp hnow
    exact ⟨ns, ns', hns, hns', hgeneration.symm, (h.counted hns hns').2.2 hgeneration.symm⟩
  have hneighbours : ∀ i, w.Leads (starts f overrides) i → w.neighbours i = v.neighbours i := by
    intro i hi
    obtain ⟨ns, ns', hns, hns', -, hglobals⟩ := hkept i hi
    rw [neighbours, hns, neighbours, hns']
    simp only [Namespace.callables, hglobals]
  have hwas : ∀ {i}, (v.namespace? i).isSome → (w.namespace? i).isSome := by
    intro i hi
    rw [Option.isSome_iff_ne_none] at hi ⊢
    exact mt h.gone hi
  refine dependsOn_eq_of_leads (fun i => ⟨fun hi => ?_, fun hi => ?_⟩) fun i hi => ?_
  · refine hi.congr (List.Subset.refl _) (fun j hj => ?_) fun j hj k hk =>
      hneighbours j hj ▸ hk
    obtain ⟨-, ns', -, hns', -⟩ := hkept j hj
    rw [hns']
    rfl
  · induction hi with
    | start hi hlive => exact .start hi (hwas hlive)
    | next _ hj hlive ih => exact .next ih (hneighbours _ ih ▸ hj) (hwas hlive)
  · obtain ⟨ns, ns', hns, hns', hgeneration, -⟩ := hkept i hi
    rw [generations, hns, generations, hns', Option.map_some, Option.map_some, hgeneration]

/-- No number that the namespaces are told by leaves eight bytes within `more` changes. -/
def Counted (w : World) (more : Nat) : Prop :=
  ∀ i ns, w.namespace? i = some ns → IsWord i ∧ IsWord (ns.generation + more)

theorem Counted.dependsOn {more : Nat} (h : w.Counted more) :
    ∀ entry ∈ w.dependsOn f overrides, IsWord entry.1 ∧ IsWord (entry.2 + more) := by
  rintro ⟨i, n⟩ hentry
  obtain ⟨ns, hns, rfl⟩ := generations_eq_some.mp (mem_dependsOn.mp hentry).2
  exact h i ns hns

/-- Records of one function and the same replacements tell the namespaces apart. -/
theorem dependsOn_eq_of_record_eq {more : Nat} (hw : w.Counted more)
    (hv : ∀ entry ∈ v.dependsOn f overrides, IsWord entry.1 ∧ IsWord entry.2)
    (h : (w.keyStream f overrides).record = (v.keyStream f overrides).record) :
    w.dependsOn f overrides = v.dependsOn f overrides := by
  have hfits : ∀ entry ∈ w.dependsOn f overrides, IsWord entry.1 ∧ IsWord entry.2 := fun e he =>
    ⟨(hw.dependsOn e he).1, Nat.lt_of_le_of_lt (Nat.le_add_right _ _) (hw.dependsOn e he).2⟩
  let field (entry : NamespaceId × Nat) : Record := Record.word entry.1 ++ Record.word entry.2
  have hfield : ∀ entries : List (NamespaceId × Nat),
      (entries.flatMap field).length = 16 * entries.length := by
    intro entries
    induction entries with
    | nil => rfl
    | cons entry rest ih =>
        rw [List.flatMap_cons, List.length_append, ih, List.length_append, Record.length_word,
          Record.length_word, List.length_cons]
        omega
  simp only [KeyStream.record, keyStream, CacheKey.record, List.append_assoc] at h
  have h := List.append_cancel_left (List.append_cancel_left (List.append_cancel_left h))
  change Record.word _ ++ ((w.dependsOn f overrides).flatMap field ++ _) =
    Record.word _ ++ ((v.dependsOn f overrides).flatMap field ++ _) at h
  have hlength : (w.dependsOn f overrides).length = (v.dependsOn f overrides).length := by
    have := congrArg List.length h
    simp only [List.length_append, Record.length_word, hfield] at this
    omega
  rw [hlength] at h
  refine (Record.flatMap_append_inj hlength (fun a ha b hb s s' hs => ?_)
    (List.append_cancel_left h)).1
  rw [List.append_assoc, List.append_assoc] at hs
  obtain ⟨hid, hs⟩ := Record.word_append_inj (hfits a ha).1 (hv b hb).1 hs
  obtain ⟨hgeneration, hs⟩ := Record.word_append_inj (hfits a ha).2 (hv b hb).2 hs
  exact ⟨Prod.ext hid hgeneration, hs⟩

/-- The namespaces are the same but for the order in which they list what they bind. -/
def Reordered (w v : World) : Prop :=
  ∀ i, Option.Rel (fun ns ns' => ns.generation = ns'.generation ∧ ns.callables.Perm ns'.callables)
    (w.namespace? i) (v.namespace? i)

namespace Reordered

theorem refl (w : World) : w.Reordered w := by
  intro i
  cases w.namespace? i with
  | none => exact .none
  | some ns => exact .some ⟨rfl, .refl _⟩

theorem generations (h : w.Reordered v) : w.generations = v.generations := by
  funext i
  rw [World.generations, World.generations]
  have hi := h i
  generalize w.namespace? i = a at hi
  generalize v.namespace? i = b at hi
  cases hi with
  | none => rfl
  | some hns => exact congrArg some hns.1

theorem isSome (h : w.Reordered v) (i : NamespaceId) :
    (w.namespace? i).isSome = (v.namespace? i).isSome := by
  have hi := congrArg Option.isSome (congrFun h.generations i)
  rwa [World.generations, World.generations, Option.isSome_map, Option.isSome_map] at hi

theorem mem_neighbours (h : w.Reordered v) {i j : NamespaceId} :
    j ∈ w.neighbours i ↔ j ∈ v.neighbours i := by
  rw [neighbours, neighbours]
  have hi := h i
  generalize w.namespace? i = a at hi
  generalize v.namespace? i = b at hi
  cases hi with
  | none => exact Iff.rfl
  | some hns => exact (hns.2.flatMap_right _).mem_iff

theorem leads_iff (h : w.Reordered v) (hids : ∀ i, i ∈ ids ↔ i ∈ ids') :
    w.Leads ids i ↔ v.Leads ids' i := by
  constructor
  · intro hi
    exact hi.congr (fun j hj => (hids j).mp hj) (fun j hj => h.isSome j ▸ hj.isSome)
      fun j _ k hk => h.mem_neighbours.mp hk
  · intro hi
    exact hi.congr (fun j hj => (hids j).mpr hj) (fun j hj => (h.isSome j).symm ▸ hj.isSome)
      fun j _ k hk => h.mem_neighbours.mpr hk

end Reordered

/-- Entries of distinct names are sorted alike in whatever order they come. -/
theorem sortByName_eq_of_perm {α : Type} {entries entries' : List (String × α)}
    (hperm : entries.Perm entries') (distinct : (Dictionary.keys entries).Nodup) :
    sortByName entries = sortByName entries' := by
  have hsorted : ∀ l : List (String × α), (sortByName l).Pairwise fun x y => x.1 ≤ y.1 := by
    intro l
    refine (List.pairwise_mergeSort ?_ ?_ l).imp of_decide_eq_true
    · intro x y z hxy hyz
      exact decide_eq_true (le_trans (of_decide_eq_true hxy) (of_decide_eq_true hyz))
    · intro x y
      simpa using le_total x.1 y.1
  have hperm' : (sortByName entries).Perm (sortByName entries') :=
    (KeyStream.sortByName_perm entries).trans
      (hperm.trans (KeyStream.sortByName_perm entries').symm)
  refine hperm'.eq_of_pairwise (fun x y hx hy hxy hyx => ?_) (hsorted _) (hsorted _)
  have hx := (KeyStream.sortByName_perm entries).mem_iff.mp hx
  have hy := hperm.mem_iff.mpr ((KeyStream.sortByName_perm entries').mem_iff.mp hy)
  exact List.inj_on_of_nodup_map distinct hx hy (le_antisymm hxy hyx)

/-- A key does not depend on the order of the replacements, if their names are distinct, nor on the
order in which namespaces list what they bind. -/
theorem cacheKey_eq_of_reordered (h : w.Reordered v) (hperm : overrides.Perm overrides')
    (distinct : (Dictionary.keys overrides).Nodup) :
    v.cacheKey f overrides' = w.cacheKey f overrides := by
  have hstarts : ∀ i, i ∈ starts f overrides ↔ i ∈ starts f overrides' := fun i =>
    ((hperm.flatMap_right _).cons f.home).mem_iff
  have hdepends : w.dependsOn f overrides = v.dependsOn f overrides' :=
    dependsOn_eq_of_leads (fun i => h.leads_iff hstarts) fun i _ => congrFun h.generations i
  rw [cacheKey_eq, cacheKey_eq, hdepends]
  congr 2
  rw [KeyStream.record, keyStream, KeyStream.record, keyStream, CacheKey.record, CacheKey.record,
    hdepends, sortByName_eq_of_perm hperm distinct, hperm.length_eq]

/-- After any changes, a key is stale exactly if the key made anew has another digest, unless two
records have one hash. The key made anew depends neither on the order of the replacements nor on the
order in which namespaces list what they bind. -/
theorem isStale_iff_digest_ne (w : World) (f : Function) (overrides : List (String × Callable))
    (changes : List Change) (counted : w.Counted changes.length)
    (collisionFree : (w.keyStream f overrides).record.hash =
        ((Change.afterAll changes w).keyStream f overrides).record.hash →
      (w.keyStream f overrides).record =
        ((Change.afterAll changes w).keyStream f overrides).record) :
    ((w.cacheKey f overrides).isStale (Change.afterAll changes w).generations = true ↔
      ((Change.afterAll changes w).cacheKey f overrides).digest ≠
        (w.cacheKey f overrides).digest) ∧
    ∀ overrides' v, overrides.Perm overrides' → (Dictionary.keys overrides).Nodup →
      (Change.afterAll changes w).Reordered v →
      (v.cacheKey f overrides').digest =
        ((Change.afterAll changes w).cacheKey f overrides).digest := by
  have haged := Aged.afterAll changes w
  refine ⟨⟨fun hstale hsame => ?_, fun hne => ?_⟩, fun overrides' v hperm distinct hv => ?_⟩
  · -- A namespace of another generation, or none, makes another record.
    obtain ⟨entry, hentry, hchanged⟩ := (isStale_iff _).mp hstale
    have hfits : ∀ e ∈ (Change.afterAll changes w).dependsOn f overrides,
        IsWord e.1 ∧ IsWord e.2 := by
      rintro ⟨i, n⟩ he
      obtain ⟨ns', hns', rfl⟩ := generations_eq_some.mp (mem_dependsOn.mp he).2
      cases hns : w.namespace? i with
      | none =>
          rw [haged.gone hns] at hns'
          cases hns'
      | some ns =>
          obtain ⟨hword, hmore⟩ := counted i ns hns
          exact ⟨hword, Nat.lt_of_le_of_lt (haged.counted hns hns').2.1 hmore⟩
    have hdepends := dependsOn_eq_of_record_eq counted hfits (collisionFree hsame.symm)
    rw [hdepends] at hentry
    exact hchanged (mem_dependsOn.mp hentry).2
  · by_contra hfresh
    refine hne ?_
    have hdepends : w.dependsOn f overrides =
        (Change.afterAll changes w).dependsOn f overrides := haged.dependsOn_eq fun entry he => by
      by_contra hchanged
      exact hfresh ((isStale_iff _).mpr ⟨entry, he, hchanged⟩)
    rw [cacheKey_eq, cacheKey_eq, KeyStream.record, keyStream, KeyStream.record, keyStream, hdepends]
  · rw [cacheKey_eq_of_reordered hv hperm distinct]

/-- The last function of the chain is defined anew. -/
def chainChanges : List Change := [.define 1 "g" (.callable (.native (.math .sqrt)))]

theorem isStale_iff_digest_ne_chain :
    (Pass.chainWorld.cacheKey Pass.chainFirst Pass.chainTable).isStale
        (Change.afterAll chainChanges Pass.chainWorld).generations = true ∧
      ((Change.afterAll chainChanges Pass.chainWorld).cacheKey Pass.chainFirst
          Pass.chainTable).digest ≠
        (Pass.chainWorld.cacheKey Pass.chainFirst Pass.chainTable).digest := by
  have hne : (Pass.chainWorld.keyStream Pass.chainFirst Pass.chainTable).record.hash ≠
      ((Change.afterAll chainChanges Pass.chainWorld).keyStream Pass.chainFirst
        Pass.chainTable).record.hash := by decide +kernel
  have counted : Pass.chainWorld.Counted chainChanges.length := by
    intro i ns hns
    obtain ⟨entry, hfind, rfl⟩ := Option.map_eq_some_iff.mp hns
    have hi := List.find?_some hfind
    obtain rfl := List.mem_singleton.mp (List.mem_of_find?_eq_some hfind)
    obtain rfl : 1 = i := by simpa using hi
    exact ⟨by decide, by decide⟩
  have hiff := (isStale_iff_digest_ne Pass.chainWorld Pass.chainFirst Pass.chainTable chainChanges
    counted fun h => absurd h hne).1
  exact ⟨hiff.mpr hne.symm, hne.symm⟩

end World

end Graft
