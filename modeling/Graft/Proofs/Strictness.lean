import Graft.Proofs.Gateways
import Graft.Proofs.Nesting
import Mathlib.Data.Set.Finite.Basic
import Mathlib.Logic.Relation

/-!
# Overrides that have to meet a call site

A pass notes the overridden names that it meets a call of. Where that is required of every override,
a name counts as well if the pass over a replacement meets it, whether or not the function comes to
that replacement. So a replacement can be what its own name is met in. If none is, not even by way
of others, every override is met from the function.
-/

namespace Graft

variable {raw table : Substitution} {v w w' : World} {f g : Function}

/-! ## Calls that can be come to -/

namespace Function

/-- From `f` a call of a bound name can be come to by names that are not overridden. -/
def Mentions (raw : Substitution) (v : World) (f : Function) (n : String) : Prop :=
  ∃ g, f.Reaches raw v g ∧ g.definition.body.Calls ⟨n, []⟩ ∧ (v.lookup g.home n).isSome

/-- What a run of `f` under the overrides comes to: from a call of an overridden name it goes on in
the replacement. -/
inductive Arrives (raw : Substitution) (v : World) (f : Function) : Function → Prop
  | refl : Arrives raw v f f
  | callee {g h n c} : Arrives raw v f g → g.definition.body.Calls ⟨n, []⟩ →
      Dictionary.get? n raw = none → v.lookup g.home n = some (.callable c) →
      c.plain? = some h → Arrives raw v f h
  | replacement {g h n c} : Arrives raw v f g → g.definition.body.Calls ⟨n, []⟩ →
      (v.lookup g.home n).isSome → Dictionary.get? n raw = some c →
      c.plain? = some h → Arrives raw v f h

/-- A run of `f` under the overrides comes to a call of the bound name. -/
def Uses (raw : Substitution) (v : World) (f : Function) (n : String) : Prop :=
  ∃ g, f.Arrives raw v g ∧ g.definition.body.Calls ⟨n, []⟩ ∧ (v.lookup g.home n).isSome

theorem Arrives.reaches {h : Function} (hg : f.Arrives raw v g) (hh : g.Reaches raw v h) :
    f.Arrives raw v h := by
  induction hh with
  | refl => exact hg
  | step _ hcalls hfree hl hc ih => exact .callee ih hcalls hfree hl hc

theorem Uses.of_mentions {n : String} (hg : f.Arrives raw v g) (h : g.Mentions raw v n) :
    f.Uses raw v n := by
  obtain ⟨k, hk, hcalls, hbound⟩ := h
  exact ⟨k, hg.reaches hk, hcalls, hbound⟩

/-- A function that calls nothing comes to itself only. -/
theorem Arrives.eq_of_leaf (leaf : ∀ p, ¬ f.definition.body.Calls p) (h : f.Arrives raw v g) :
    g = f := by
  induction h with
  | refl => rfl
  | callee _ hcalls _ _ _ ih => exact absurd (ih ▸ hcalls) (leaf _)
  | replacement _ hcalls _ _ _ ih => exact absurd (ih ▸ hcalls) (leaf _)

end Function

/-- The replacement for the name `m` is specialized, and from it a call of `n` can be come to. -/
def Substitution.Feeds (raw : Substitution) (v : World) (n m : String) : Prop :=
  ∃ c p, Dictionary.get? m raw = some c ∧ raw.pending? c = some p ∧ p.Mentions raw v n

/-! ## What a pass notes -/

namespace Pass

variable {made : Function → Artifact → Prop} {visits : Function → Prop}
  {callee : Function → Pass Artifact} {id : NamespaceId} {name : String} {names : List String}
  {debug : Bool} {s t u : State}

theorem compile_matched {r : Except Fault Artifact} (h : compile f s = (r, t)) :
    t.matched = s.matched := by
  rw [compile_apply] at h
  split at h
  · cases h
    rfl
  · cases h
    rfl

/-- Whatever is noted newly is a bound name that a function calls which the pass comes to. -/
def State.Notes (visits : Function → Prop) (v : World) (s t : State) : Prop :=
  ∀ n ∈ t.matched, n ∈ s.matched ∨
    ∃ g, visits g ∧ g.definition.body.Calls ⟨n, []⟩ ∧ (v.lookup g.home n).isSome

theorem State.Notes.of_eq (h : t.matched = s.matched) : s.Notes visits v t := by
  intro n hn
  rw [h] at hn
  exact .inl hn

theorem State.Notes.trans (h : s.Notes visits v t) (h' : t.Notes visits v u) :
    s.Notes visits v u := by
  intro n hn
  rcases h' n hn with hn | hn
  · exact h n hn
  · exact .inr hn

/-- What is noted when a name is decided: the name itself, if it is overridden and bound, or what is
noted while the pass is made over the function that is bound to it. -/
theorem decide_matched {b : Bool} (h : decide table debug callee id name s = (.ok b, t)) :
    ((s.lookup id name = none ∨ Dictionary.get? name table = none) ∧ t.matched = s.matched) ∨
      ((s.lookup id name).isSome ∧ (Dictionary.get? name table).isSome ∧
        t.matched = Ordered.insert name s.matched) ∨
      ∃ c f a u, s.lookup id name = some (.callable c) ∧ Dictionary.get? name table = none ∧
        c.plain? = some f ∧ callee f s = (.ok a, u) ∧ t.matched = u.matched := by
  obtain hl | ⟨g, r, hl, hr⟩ | ⟨c, f, hl, hr, hf⟩ | ⟨g, hl, hr, hg⟩ := lookup_cases table id name s
  · rw [decide_unbound _ _ _ hl] at h
    cases h
    exact .inl ⟨.inl hl, rfl⟩
  · obtain ⟨t', ht', -, hmatched⟩ := decide_overridden debug callee hl hr
    rw [ht'] at h
    cases h
    exact .inr (.inl ⟨by rw [hl]; rfl, by rw [hr]; rfl, hmatched⟩)
  · rw [decide_replaced _ _ hl hr hf] at h
    split at h
    · next a u hu =>
        cases h
        exact .inr (.inr ⟨c, f, a, u, hl, hr, hf, hu, rfl⟩)
    · cases h
  · rw [decide_kept _ _ hl hr hg] at h
    cases h
    exact .inl ⟨.inr hr, rfl⟩

theorem Sound.isSome (hs : Sound made v table s) (hid : (s.world.namespace? id).isSome)
    (hname : PlainName name) (h : (s.lookup id name).isSome) : (v.lookup id name).isSome := by
  obtain heq | ⟨c, g, a, hv, -⟩ := hs.names id name hid hname
  · rwa [← heq]
  · rw [hv]
    rfl

theorem Sound.plain (hs : Sound made v table s) (hid : (s.world.namespace? id).isSome)
    (hname : PlainName name) {c : Callable} (hl : s.lookup id name = some (.callable c))
    (hc : c.plain? = some f) : v.lookup id name = some (.callable c) := by
  obtain heq | ⟨c', g, a, -, -, ha, -⟩ := hs.names id name hid hname
  · rw [← heq, hl]
  · rw [hl] at ha
    cases ha
    cases hc

/-- What is noted while the names are decided that a function calls. -/
theorem decideAll_notes {found : List String} (hf : visits f)
    (h : decideAll table debug callee f.home names s = (.ok found, t)) (hs : Sound made v table s)
    (hid : (s.world.namespace? f.home).isSome)
    (hcalls : ∀ n ∈ names, f.definition.body.Calls ⟨n, []⟩) (hplain : ∀ n ∈ names, PlainName n)
    (hcallee : ∀ n ∈ names, ∀ c g a s u, Sound made v table s →
      v.lookup f.home n = some (.callable c) → c.plain? = some g →
      Dictionary.get? n table = none → callee g s = (.ok a, u) →
      (Sound made v table u ∧ s.Extends u ∧ made g a) ∧ s.Notes visits v u) :
    s.Notes visits v t := by
  induction names generalizing s found with
  | nil =>
      cases h
      exact .of_eq rfl
  | cons n rest ih =>
      rw [decideAll] at h
      obtain ⟨b, s₁, hb, h⟩ := Run.bind_eq_ok h
      obtain ⟨more, t₁, hmore, h⟩ := Run.bind_eq_ok h
      cases h
      have hn : PlainName n := hplain n List.mem_cons_self
      obtain ⟨hs₁, hext, -⟩ := (decide_eq_ok hb).sound hs hid hn fun c g a u hl hc hr hu =>
        (hcallee n List.mem_cons_self c g a s u hs hl hc hr hu).1
      have hrest : s₁.Notes visits v t :=
        ih hmore hs₁ (by rwa [hext.live]) (fun m hm => hcalls m (List.mem_cons_of_mem n hm))
          (fun m hm => hplain m (List.mem_cons_of_mem n hm))
          (fun m hm => hcallee m (List.mem_cons_of_mem n hm))
      refine State.Notes.trans ?_ hrest
      obtain ⟨-, heq⟩ | ⟨hsome, -, heq⟩ | ⟨c, g, a, u, hl, hr, hc, hu, heq⟩ := decide_matched hb
      · exact .of_eq heq
      · intro m hm
        rw [heq, Ordered.mem_insert] at hm
        rcases hm with rfl | hm
        · exact .inr ⟨f, hf, hcalls m List.mem_cons_self, hs.isSome hid hn hsome⟩
        · exact .inl hm
      · intro m hm
        rw [heq] at hm
        exact (hcallee n List.mem_cons_self c g a s u hs (hs.plain hid hn hl hc) hc hr hu).2 m hm

/-- What a pass over a function notes are names that are called where it comes to. -/
theorem specialize_notes (readsBack : ∀ g, visits g → g.ReadsBack)
    (callees : ∀ f, visits f → ∀ n c g, f.definition.body.Calls ⟨n, []⟩ →
      v.lookup f.home n = some (.callable c) → c.plain? = some g →
      Dictionary.get? n table = none → visits g)
    {fuel : Nat} {active : List (Nat × String)} (hf : visits f)
    (hs : Sound (fun _ _ => True) v table s)
    (h : specialize table debug fuel active f s = (.ok g, t)) :
    Sound (fun _ _ => True) v table t ∧ s.Extends t ∧ s.Notes visits v t := by
  induction fuel generalizing active f g s t with
  | zero =>
      rw [specialize] at h
      split at h
      · cases h
      · cases h
  | succ fuel ih =>
      rw [specialize] at h
      split at h
      · cases h
      · obtain ⟨s₁, t₁, names, ⟨hs₁, hm₁⟩, hlive, hdecide, ⟨ht, hm⟩, -, unit, hunit⟩ :=
          substituteFunction_eq_ok (readsBack f hf) h
        obtain ⟨span, rfl⟩ := readsBack f hf unit hunit
        have hwithin := Function.within_plain_of_extract hunit
        have hcalls : ∀ n ∈ calledInOrder f.definition.body,
            f.definition.body.Calls ⟨n, []⟩ := fun n hn => mem_calledInOrder.mp hn
        have hplain : ∀ n ∈ calledInOrder f.definition.body, PlainName n :=
          fun n hn => Block.calls_of_within hwithin.uses (hcalls n hn)
        have hcallee : ∀ n ∈ calledInOrder f.definition.body, ∀ c k a s u,
            Sound (fun _ _ => True) v table s → v.lookup f.home n = some (.callable c) →
            c.plain? = some k → Dictionary.get? n table = none →
            (do compile (← specialize table debug fuel (active ++ [(f.id, f.name)]) k)) s =
              (.ok a, u) →
            (Sound (fun _ _ => True) v table u ∧ s.Extends u ∧ True) ∧ s.Notes visits v u := by
          intro n hn c k a s u hs hl hc hfree hu
          obtain ⟨k', s', hk', hcompile⟩ := Run.bind_eq_ok hu
          obtain ⟨hs', hext, hnotes⟩ := ih (callees f hf n c k (hcalls n hn) hl hc hfree) hs hk'
          have halike := alike_of_compile hcompile
          exact ⟨⟨hs'.of_alike halike, hext.trans (.of_alike halike), trivial⟩,
            hnotes.trans (.of_eq (compile_matched hcompile))⟩
        have hsound := hs.of_alike hs₁
        obtain ⟨ht₁, hext, -⟩ := decideAll_sound hdecide hsound hlive hplain
          fun n hn c k a s u hs hl hc hr hu => (hcallee n hn c k a s u hs hl hc hr hu).1
        have hnotes := decideAll_notes hf hdecide hsound hlive hcalls hplain hcallee
        exact ⟨ht₁.of_alike ht,
          (State.Extends.of_alike hs₁).trans (hext.trans (.of_alike ht)),
          (State.Notes.of_eq hm₁).trans (hnotes.trans (.of_eq hm))⟩

/-- A pass with a new registry notes names that can be come to. -/
theorem substituteCompiled_notes (keeps : w.Keeps v)
    (readsBack : ∀ g, f.Reaches raw v g → g.ReadsBack)
    (keys : ∀ n, Dictionary.get? n table = none → Dictionary.get? n raw = none)
    {isolation : Isolation} {a : Artifact}
    (h : substituteCompiled table debug f
      { world := w, registry := { table := .ofIsolation isolation } } = (.ok a, t)) :
    ∀ n ∈ t.matched, f.Mentions raw v n := by
  obtain ⟨g, s, hg, hcompile⟩ := Run.bind_eq_ok h
  obtain ⟨u, u', hget, hg⟩ := Run.bind_eq_ok hg
  cases hget
  obtain ⟨-, -, hnotes⟩ := specialize_notes readsBack
    (fun g hg n c h hcalls hl hc hfree => .step hg hcalls (keys n hfree) hl hc) .refl
    (Sound.start keeps _ table isolation) hg
  intro n hn
  rw [compile_matched hcompile] at hn
  rcases hnotes n hn with hn | hn
  · exact absurd hn List.not_mem_nil
  · exact hn

end Pass

/-! ## What a specialization requires -/

section

variable {overrides : List (String × Callable)} {isolation : Isolation} {debug : Bool}
  {a : Artifact}

theorem Substitution.prepareReplacements_notes {made rest : Substitution} {used : List String}
    {s t : World} (keeps : w.Keeps v) (keys : ∀ n, Dictionary.get? n table = none →
      Dictionary.get? n raw = none)
    (readsBack : ∀ m c p g, (m, c) ∈ rest → table.pending? c = some p → p.Reaches raw v g →
      g.ReadsBack)
    (hs : w.Same s)
    (h : table.prepareReplacements isolation debug rest s = (.ok (made, used), t)) :
    ∀ n ∈ used, ∃ m c p, (m, c) ∈ rest ∧ table.pending? c = some p ∧ p.Mentions raw v n := by
  induction rest generalizing s made used with
  | nil =>
      cases h
      exact fun n hn => absurd hn List.not_mem_nil
  | cons entry rest ih =>
      obtain ⟨name, c⟩ := entry
      rw [prepareReplacements] at h
      have hrest : ∀ m c p g, (m, c) ∈ rest → table.pending? c = some p → p.Reaches raw v g →
          g.ReadsBack := fun m c p g hc => readsBack m c p g (List.mem_cons_of_mem _ hc)
      cases hp : table.pending? c with
      | none =>
          rw [hp] at h
          intro n hn
          obtain ⟨m, c', p, hc', hmentions⟩ := ih hrest hs h n hn
          exact ⟨m, c', p, List.mem_cons_of_mem _ hc', hmentions⟩
      | some p =>
          rw [hp] at h
          dsimp only at h
          obtain ⟨⟨a, matched⟩, s₁, ha, h⟩ := Run.bind_eq_ok h
          obtain ⟨⟨others, more⟩, t₁, hothers, h⟩ := Run.bind_eq_ok h
          cases h
          have hpass := Run.mapReport_eq_ok ha
          have htransparent := Pass.transparent_within
            (fun w => Pass.undoable_substituteCompiled (w := w) table debug p) isolation debug
          obtain ⟨u, hu, rfl⟩ := Pass.within_eq_ok hpass
          intro n hn
          rcases Ordered.mem_union.mp hn with hn | hn
          · refine ⟨name, c, p, List.mem_cons_self, hp, ?_⟩
            exact Pass.substituteCompiled_notes (hs.keeps keeps)
              (readsBack name c p · List.mem_cons_self hp) keys hu n hn
          · obtain ⟨m, c', p', hc', hmentions⟩ :=
              ih hrest (hs.trans (htransparent.same_of_eq hpass)) hothers n hn
            exact ⟨m, c', p', List.mem_cons_of_mem _ hc', hmentions⟩

namespace Function

/-- Where every override has to be met, the check passes only if none is left. -/
theorem checkMatched_strict {names : List String} {s t : Pass.State}
    (h : f.checkMatched true debug names s = (.ok ⟨⟩, t)) : names = [] := by
  cases names with
  | nil => rfl
  | cons name rest => cases h

/-- Where that is required, every override is met from the function or from a replacement. -/
theorem specializeAnew_strict (distinct : (Dictionary.keys overrides).Nodup)
    (readsBack : ∀ g, f.Involves overrides v g → g.ReadsBack) (keeps : w.Keeps v)
    (strict : w.settings.strictOverrides = true)
    (h : f.specializeAnew overrides debug w = (.ok a, w')) :
    ∀ n ∈ Dictionary.keys overrides,
      f.Mentions overrides v n ∨ ∃ m, Substitution.Feeds overrides v n m := by
  have same := Dictionary.get?_sorted distinct
  have hsorted : ∀ n, Dictionary.get? n (Dictionary.sorted overrides) = none →
      Dictionary.get? n overrides = none := fun n hn => by rwa [← same]
  obtain ⟨table, used, t, s₁, s₂, hprepare, hsubstitute, hcheck⟩ := specializeAnew_steps h
  obtain ⟨hsame, hkeys, -⟩ :=
    Substitution.prepare_eq_ok (Dictionary.nodup_keys_sorted overrides) hprepare
  obtain ⟨⟨made, used'⟩, t', hmade, hprepare⟩ := Run.bind_eq_ok hprepare
  obtain ⟨_, _, -, hprepare⟩ := Run.bind_eq_ok hprepare
  cases hprepare
  -- what was noted while replacements were prepared
  have hused := Substitution.prepareReplacements_notes keeps hsorted
    (fun m c p g hc hp hg => by
      obtain rfl := Substitution.pending?_eq_some hp
      have hget := Dictionary.get?_of_mem (Dictionary.nodup_keys_sorted overrides) hc
      rw [same] at hget
      exact readsBack g (hg.involves (.replacement hget rfl))) (.refl w) hmade
  rw [strict] at hcheck
  have hidle := checkMatched_strict hcheck
  rw [List.filter_eq_nil_iff] at hidle
  -- what was noted in the pass over the function itself
  have hmet := Pass.substituteCompiled_notes (hsame.keeps keeps)
    (fun g hg => readsBack g (hg.involves .refl)) (fun n hn => by
      rw [Dictionary.get?_eq_none_iff, hkeys, ← Dictionary.get?_eq_none_iff] at hn
      exact hsorted n hn) hsubstitute
  intro n hn
  have hkey : n ∈ Dictionary.keys table := by
    rw [hkeys]
    by_contra hnot
    rw [← Dictionary.get?_eq_none_iff] at hnot
    exact Dictionary.get?_eq_none_iff.mp (hsorted n hnot) hn
  -- no override is left over, so the name is among those that were noted
  have hmatched : n ∈ Ordered.union used s₁.matched := by
    simpa using hidle n hkey
  rcases Ordered.mem_union.mp hmatched with hn | hn
  · obtain ⟨m, c, p, hc, hp, hmentions⟩ := hused n hn
    have hget := Dictionary.get?_of_mem (Dictionary.nodup_keys_sorted overrides) hc
    rw [same] at hget
    rw [Substitution.pending?_congr fun p _ => same p.name] at hp
    exact .inr ⟨m, c, p, hget, hp, hmentions⟩
  · exact .inl (hmet n hn)

/-- If no name is met, directly or by way of others, in what is specialized for it, every name that
is met at all is met from the function. -/
theorem uses_of_feeds
    (acyclic : ∀ n, ¬ Relation.TransGen (Substitution.Feeds raw v) n n)
    (met : ∀ n ∈ Dictionary.keys raw, f.Mentions raw v n ∨ ∃ m, Substitution.Feeds raw v n m) :
    ∀ n ∈ Dictionary.keys raw, f.Uses raw v n := by
  let feeds (m n : { n // n ∈ Dictionary.keys raw }) : Prop :=
    Relation.TransGen (Substitution.Feeds raw v) n m
  have trans : IsTrans _ feeds := ⟨fun _ _ _ h h' => h'.trans h⟩
  have irrefl : Std.Irrefl feeds := ⟨fun n => acyclic n⟩
  have finite : Finite { n // n ∈ Dictionary.keys raw } := (List.finite_toSet _).to_subtype
  have founded : WellFounded feeds := Finite.wellFounded_of_trans_of_irrefl _
  intro n hn
  induction hk : (⟨n, hn⟩ : { n // n ∈ Dictionary.keys raw }) using founded.induction
    generalizing n with
  | _ k ih =>
      subst hk
      rcases met n hn with hmentions | ⟨m, c, p, hget, hp, hmentions⟩
      · exact .of_mentions .refl hmentions
      · -- The replacement for `m` is come to from the function, as `m` is.
        have hm : m ∈ Dictionary.keys raw := by
          by_contra hnot
          rw [Dictionary.get?_eq_none_iff.mpr hnot] at hget
          cases hget
        obtain ⟨g, hg, hcalls, hbound⟩ :=
          ih ⟨m, hm⟩ (.single ⟨c, p, hget, hp, hmentions⟩) m hm rfl
        obtain rfl := Substitution.pending?_eq_some hp
        exact .of_mentions (.replacement hg hcalls hbound hget rfl) hmentions

/-- Where every override has to be met, a specialization is made only if the function comes to a
call of every overridden name, through the replacements as well; as long as no replacement is what
its own name is met in. -/
theorem specialize_uses (distinct : (Dictionary.keys overrides).Nodup)
    (readsBack : ∀ g, f.Involves (unwrapOverrides overrides) v g → g.ReadsBack)
    (keeps : w.Keeps v) (strict : w.settings.strictOverrides = true)
    (kept : ∀ b, w.cache.find? (w.cacheKey f (unwrapOverrides overrides)) = some b →
      ∃ u u' debug, (u.Keeps v ∧ u.settings.strictOverrides = true) ∧
        f.specializeAnew (unwrapOverrides overrides) debug u = (.ok b, u'))
    (acyclic : ∀ n, ¬ Relation.TransGen (Substitution.Feeds (unwrapOverrides overrides) v) n n)
    (h : f.specialize overrides debug w = (.ok a, w')) :
    ∀ n ∈ Dictionary.keys overrides, f.Uses (unwrapOverrides overrides) v n := by
  have hkeys : Dictionary.keys (unwrapOverrides overrides) = Dictionary.keys overrides := by
    rw [Dictionary.keys, unwrapOverrides, List.map_map]
    rfl
  obtain ⟨u, u', debug', ⟨hkeeps, hstrict⟩, hanew⟩ := specialize_eq_ok h
    (fun t ht => ⟨ht.keeps keeps, by rw [← ht.settings, strict]⟩) kept
  rw [← hkeys] at distinct ⊢
  exact uses_of_feeds acyclic (specializeAnew_strict distinct readsBack hkeeps hstrict hanew)

def strictWorld : World := { nestWorld with settings := { cache := false, strictOverrides := true } }

theorem strictWorld_keeps : strictWorld.Keeps nestWorld := fun _ hlive => ⟨hlive, fun _ => rfl⟩

/-- The replacement for `a` is what `b` is met in, and nothing is met in the one for `b`. -/
theorem nestPair_feeds {n m : String} (h : Substitution.Feeds nestPair nestWorld n m) :
    n = "b" ∧ m = "a" := by
  obtain ⟨c, p, hget, hp, g, hg, hcalls, -⟩ := h
  obtain rfl := Substitution.pending?_eq_some hp
  obtain hentry | hentry := List.mem_pair.mp (Dictionary.mem_of_get? hget)
  · cases hentry
    obtain rfl := hg.eq_of_overridden fun n hn => by
      rw [nestFirst_overridden hn]
      exact Option.some_ne_none _
    rw [Block.calls_iff, nest_calls.2.1, List.mem_singleton] at hcalls
    cases hcalls
    exact ⟨rfl, rfl⟩
  · cases hentry
    obtain rfl := hg.eq_of_overridden fun n hn => absurd hn (nestLast_not_calls _)
    exact absurd hcalls (nestLast_not_calls _)

theorem nestPair_acyclic (n : String) :
    ¬ Relation.TransGen (Substitution.Feeds nestPair nestWorld) n n := by
  intro h
  obtain ⟨k, -, hlast⟩ := Relation.TransGen.tail'_iff.mp h
  obtain ⟨m, hfirst, -⟩ := Relation.TransGen.head'_iff.mp h
  have hsame : "b" = "a" := (nestPair_feeds hfirst).1.symm.trans (nestPair_feeds hlast).2
  exact absurd hsame (by decide)

theorem specialize_uses_nestPair :
    ∃ a w', nestEntry.specialize nestPair false strictWorld = (.ok a, w') ∧
      ∀ n ∈ Dictionary.keys nestPair, nestEntry.Uses nestPair nestWorld n := by
  have hok : (nestEntry.specialize nestPair false strictWorld).1.isOk = true := by decide +kernel
  rcases h : nestEntry.specialize nestPair false strictWorld with ⟨e | a, w'⟩
  · rw [h] at hok
    cases hok
  · have distinct : (Dictionary.keys nestPair).Nodup := by decide
    refine ⟨a, w', rfl, specialize_uses distinct nestEntry_loaded.readsBack strictWorld_keeps rfl
      ?_ nestPair_acyclic h⟩
    exact fun b hb => nomatch hb

/-- A replacement that calls the name that it is given for. -/
def loopPair : List (String × Callable) := [("a", .function nestEntry)]

/-- The name is met in its own replacement, which the function never comes to. -/
theorem specialize_not_uses :
    ∃ a w', nestLast.specialize loopPair false strictWorld = (.ok a, w') ∧
      ¬ nestLast.Uses loopPair nestWorld "a" := by
  have hok : (nestLast.specialize loopPair false strictWorld).1.isOk = true := by decide +kernel
  rcases h : nestLast.specialize loopPair false strictWorld with ⟨e | a, w'⟩
  · rw [h] at hok
    cases hok
  · refine ⟨a, w', rfl, ?_⟩
    rintro ⟨g, hg, hcalls, -⟩
    obtain rfl := hg.eq_of_leaf nestLast_not_calls
    exact nestLast_not_calls _ hcalls

end Function

end

end Graft
