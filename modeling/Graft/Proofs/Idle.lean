import Graft.Proofs.Isolation
import Graft.Proofs.Nesting

/-!
# Overrides that meet no call site

A name that nothing calls where passes come to can be overridden or not: each pass goes through the
same steps, and another replacement was made for nothing. It must not be what a replacement is
called, since a replacement with an overridden name is taken as it is.
-/

namespace Graft

variable {α β σ : Type} {raw table table' : Substitution} {v w : World} {f g : Function} {k : String}

/-! ## Call sites in sources -/

namespace Function

/-- The bare names that are called in the source of the function, as a pass reads it. -/
def sourceCalls (f : Function) : List String :=
  match f.extract with
  | .ok ⟨.function d _ :: _⟩ => Pass.calledInOrder d.body
  | _ => []

theorem mem_sourceCalls (back : f.ReadsBack) {n : String} (h : n ∈ f.sourceCalls) :
    f.definition.body.Calls ⟨n, []⟩ := by
  rw [sourceCalls] at h
  split at h
  · next d span rest hunit =>
      obtain ⟨_, hback⟩ := back _ hunit
      cases hback
      exact Pass.mem_calledInOrder.mp h
  · exact absurd h List.not_mem_nil

/-- What a pass over `f` comes to: whatever function is bound to a name that is called and not
overridden. -/
inductive Visits (raw : Substitution) (v : World) (f : Function) : Function → Prop
  | refl : Visits raw v f f
  | step {g h n c} : Visits raw v f g → n ∈ g.sourceCalls → Dictionary.get? n raw = none →
      v.lookup g.home n = some (.callable c) → c.plain? = some h → Visits raw v f h

/-- No pass over `f` or one of the replacements comes to a call of the name. -/
structure Spares (raw : Substitution) (v : World) (f : Function) (k : String) : Prop where
  function : ∀ g, f.Visits raw v g → k ∉ g.sourceCalls
  replacement : ∀ n p g, (n, .function p) ∈ raw → p.Visits raw v g → k ∉ g.sourceCalls

/-- A pass over a function that calls only overridden names comes to the function only. -/
theorem Visits.eq_of_overridden (overridden : ∀ n ∈ f.sourceCalls, Dictionary.get? n raw ≠ none)
    (h : f.Visits raw v g) : g = f := by
  induction h with
  | refl => rfl
  | step _ hn hfree _ _ ih =>
      subst ih
      exact absurd hfree (overridden _ hn)

theorem Visits.of_lookup (h : ∀ id n, w.lookup id n = v.lookup id n) (hg : f.Visits raw v g) :
    f.Visits raw w g := by
  induction hg with
  | refl => exact .refl
  | step _ hn hfree hl hc ih => exact .step ih hn hfree ((h _ _).trans hl) hc

theorem Spares.of_lookup (spares : f.Spares raw w k)
    (h : ∀ id n, w.lookup id n = v.lookup id n) : f.Spares raw v k where
  function g hg := spares.function g (hg.of_lookup h)
  replacement n p g hp hg := spares.replacement n p g hp (hg.of_lookup h)

theorem Visits.involves (readsBack : ∀ g, f.Involves raw v g → g.ReadsBack) {p : Function}
    (hp : f.Involves raw v p) (h : p.Visits raw v g) : f.Involves raw v g := by
  induction h with
  | refl => exact hp
  | step _ hn _ hl hc ih => exact .callee ih (mem_sourceCalls (readsBack _ ih) hn) hl hc

/-- For functions as they were read it is enough that none of those that take part calls the name. -/
theorem Spares.of_calls (distinct : (Dictionary.keys raw).Nodup)
    (readsBack : ∀ g, f.Involves raw v g → g.ReadsBack)
    (free : ∀ g, f.Involves raw v g → ¬ g.definition.body.Calls ⟨k, []⟩) : f.Spares raw v k := by
  have unseen : ∀ p g, f.Involves raw v p → p.Visits raw v g → k ∉ g.sourceCalls := by
    intro p g hp hg hk
    have hinvolved := hg.involves readsBack hp
    exact free g hinvolved (mem_sourceCalls (readsBack g hinvolved) hk)
  refine ⟨fun g => unseen f g .refl, fun n p g hp => unseen p g ?_⟩
  exact .replacement (Dictionary.get?_of_mem distinct hp) rfl

end Function

/-! ## Runs that are the same -/

theorem Run.bind_congr {x y : Run σ α} {f g : α → Run σ β} {s : σ} (h : x s = y s)
    (step : ∀ a t, x s = (.ok a, t) → f a t = g a t) : (x >>= f) s = (y >>= g) s := by
  rw [Run.bind_apply, Run.bind_apply, ← h]
  rcases hx : x s with ⟨e | a, t⟩
  · rfl
  · exact step a t hx

/-- The same, where the first step preserves what the second one rests on. -/
theorem Run.Preserves.bind_congr {inv : σ → Prop} {x y : Run σ α} {f g : α → Run σ β} {s : σ}
    (hx : Run.Preserves inv x) (hs : inv s) (h : x s = y s)
    (step : ∀ a t, inv t → x s = (.ok a, t) → f a t = g a t) : (x >>= f) s = (y >>= g) s := by
  refine Run.bind_congr h fun a t ha => step a t ?_ ha
  have ht := hx s hs
  rwa [ha] at ht

namespace Pass

variable {debug : Bool} {callee callee' : Function → Pass Artifact} {id : NamespaceId}
  {name : String} {names : List String} {s t : State}

/-- Names that a text can hold are bound as in the world, or to artifacts. -/
def State.Rests (v : World) (s : State) : Prop :=
  ∀ id n, PlainName n → s.lookup id n = v.lookup id n ∨
    ∃ a, s.lookup id n = some (.callable (.artifact a))

theorem State.Rests.steady (v : World) : State.Steady (State.Rests v) where
  of_alike hs h id n hn := by
    rw [h.lookup]
    exact hs id n hn
  replacement {s} id name r hs i n hn := by
    rcases s.lookup_install_cases id (overrideAlias name) name (.callable r) i n with
      h | ⟨⟨-, h⟩, -⟩
    · rw [h]
      exact hs i n hn
    · exact absurd h (hn name)
  artifact {_ t} id name a _ ht _ i n hn := by
    rcases t.lookup_install_cases id name name (.callable (.artifact a)) i n with h | ⟨-, h⟩
    · rw [h]
      exact ht i n hn
    · exact .inr ⟨a, h⟩

theorem State.Rests.start (h : v.Same w) (isolation : Isolation) :
    State.Rests v (.start isolation w) := by
  intro id n _
  rw [State.lookup_start, h.lookup]
  exact .inl rfl

/-- A function that is found was bound before. -/
theorem State.Rests.plain (hs : s.Rests v) (hname : PlainName name) {c : Callable}
    (hl : s.lookup id name = some (.callable c)) (hc : c.plain? = some f) :
    v.lookup id name = some (.callable c) := by
  rcases hs id name hname with h | ⟨a, ha⟩
  · rw [← h, hl]
  · rw [hl] at ha
    cases ha
    cases hc

/-- Two tables that agree on a name decide it in the same way, if the passes over the function that
is bound to it are the same. -/
theorem decide_congr (hs : s.Rests v) (hname : PlainName name)
    (htable : Dictionary.get? name table = Dictionary.get? name table')
    (hcallee : ∀ c g, v.lookup id name = some (.callable c) → c.plain? = some g →
      Dictionary.get? name table = none → callee g s = callee' g s) :
    decide table debug callee id name s = decide table' debug callee' id name s := by
  rw [decide, decide]
  refine Run.bind_congr rfl fun o t ho => ?_
  obtain ⟨rfl, rfl⟩ : s.lookup id name = o ∧ s = t := by
    cases ho
    exact ⟨rfl, rfl⟩
  cases hl : s.lookup id name with
  | none => rfl
  | some current =>
      dsimp only
      rw [← htable]
      cases hr : Dictionary.get? name table with
      | some r => rfl
      | none =>
          cases current with
          | constant x => rfl
          | callable c =>
              dsimp only
              cases hc : c.plain? with
              | none => rfl
              | some g =>
                  refine Run.bind_congr ?_ fun _ _ _ => rfl
                  rw [Run.mapReport_apply, Run.mapReport_apply, hcallee c g (hs.plain hname hl hc) hc hr]

theorem decideAll_congr (hs : s.Rests v) (hnames : ∀ n ∈ names, PlainName n)
    (htable : ∀ n ∈ names, Dictionary.get? n table = Dictionary.get? n table')
    (hpreserves : ∀ g, Run.Preserves (State.Rests v) (callee g))
    (hcallee : ∀ n ∈ names, ∀ c g, v.lookup id n = some (.callable c) → c.plain? = some g →
      Dictionary.get? n table = none → ∀ t : State, t.Rests v → callee g t = callee' g t) :
    decideAll table debug callee id names s = decideAll table' debug callee' id names s := by
  induction names generalizing s with
  | nil => rfl
  | cons n rest ih =>
      rw [decideAll, decideAll]
      refine Run.Preserves.bind_congr ((State.Rests.steady v).decide hpreserves id n) hs ?_
        fun b t ht _ => Run.bind_congr ?_ fun _ _ _ => rfl
      · exact decide_congr hs (hnames n List.mem_cons_self) (htable n List.mem_cons_self)
          fun c g hl hc hr => hcallee n List.mem_cons_self c g hl hc hr s hs
      · exact ih ht (fun m hm => hnames m (List.mem_cons_of_mem n hm))
          (fun m hm => htable m (List.mem_cons_of_mem n hm))
          fun m hm => hcallee m (List.mem_cons_of_mem n hm)

/-- The same for the rewriting of a function: only the names that are called in its source matter. -/
theorem substituteFunction_congr (hs : s.Rests v)
    (htable : ∀ n ∈ f.sourceCalls, Dictionary.get? n table = Dictionary.get? n table')
    (hpreserves : ∀ g, Run.Preserves (State.Rests v) (callee g))
    (hcallee : ∀ n ∈ f.sourceCalls, ∀ c g, v.lookup f.home n = some (.callable c) →
      c.plain? = some g → Dictionary.get? n table = none → ∀ t : State, t.Rests v →
        callee g t = callee' g t) :
    substituteFunction table debug callee f s = substituteFunction table' debug callee' f s := by
  rw [substituteFunction, substituteFunction]
  refine Run.Preserves.bind_congr ((State.Rests.steady v).trace _ _) hs rfl fun _ s hs _ => ?_
  cases hextract : f.extract with
  | error d =>
      refine Run.bind_congr rfl fun _ _ h => ?_
      cases h
  | ok unit =>
      refine Run.Preserves.bind_congr (.ofOutcome _) hs rfl fun unit' s hs hunit => ?_
      cases hunit
      refine Run.Preserves.bind_congr .get hs rfl fun _ s hs _ => ?_
      refine Run.Preserves.bind_congr (.ofOutcome _) hs rfl fun _ s hs _ => ?_
      refine Run.bind_congr ?_ fun _ _ _ => rfl
      rw [substituteUnit.eq_def, substituteUnit.eq_def]
      obtain ⟨_ | ⟨item, rest⟩⟩ := unit
      · dsimp only
      · cases item with
        | function d span =>
            have hcalls : f.sourceCalls = calledInOrder d.body := by
              rw [Function.sourceCalls, hextract]
            rw [hcalls] at htable hcallee
            refine Run.bind_congr ?_ fun _ _ _ => rfl
            exact decideAll_congr hs (Function.plainCalls_of_extract hextract d span rest rfl)
              htable hpreserves hcallee
        | _ => dsimp only

/-- Passes with two tables over a function are the same, if the tables agree on the names that are
called where the pass comes to. -/
theorem specialize_congr {visits : Function → Prop}
    (closed : ∀ f, visits f → ∀ n ∈ f.sourceCalls,
      Dictionary.get? n table = Dictionary.get? n table' ∧
        (Dictionary.get? n table = none → ∀ c g, v.lookup f.home n = some (.callable c) →
          c.plain? = some g → visits g))
    {fuel : Nat} {active : List (Nat × String)} (hf : visits f) (hs : s.Rests v) :
    specialize table debug fuel active f s = specialize table' debug fuel active f s := by
  induction fuel generalizing active f s with
  | zero => rw [specialize, specialize]
  | succ fuel ih =>
      rw [specialize, specialize]
      split
      · rfl
      · refine substituteFunction_congr hs (fun n hn => (closed f hf n hn).1) (fun g => ?_)
          fun n hn c g hl hc hr t ht => ?_
        · exact ((State.Rests.steady v).specialize table debug fuel _ g).bind fun _ =>
            (State.Rests.steady v).compile _
        · exact Run.bind_congr (ih ((closed f hf n hn).2 hr c g hl hc) ht) fun _ _ _ => rfl

theorem substituteCompiled_congr (visits : Function → Prop)
    (closed : ∀ f, visits f → ∀ n ∈ f.sourceCalls,
      Dictionary.get? n table = Dictionary.get? n table' ∧
        (Dictionary.get? n table = none → ∀ c g, v.lookup f.home n = some (.callable c) →
          c.plain? = some g → visits g))
    (hf : visits f) (hs : s.Rests v) :
    substituteCompiled table debug f s = substituteCompiled table' debug f s :=
  Run.bind_congr (Run.bind_congr rfl fun _ _ hget => by
    cases hget
    exact specialize_congr closed hf hs) fun _ _ _ => rfl

/-- A pass that comes to no call of a name is the same without it. -/
theorem substituteCompiled_erase (h : v.Same w)
    (keys : ∀ n, n ≠ k → Dictionary.get? n table = none → Dictionary.get? n raw = none)
    (unseen : ∀ g, f.Visits raw v g → k ∉ g.sourceCalls) (isolation : Isolation) :
    substituteCompiled table debug f (.start isolation w) =
      substituteCompiled (Dictionary.erase k table) debug f (.start isolation w) := by
  refine substituteCompiled_congr (f.Visits raw v) (fun g hg n hn => ?_) .refl
    (State.Rests.start h isolation)
  have hne : n ≠ k := by
    rintro rfl
    exact unseen g hg hn
  exact ⟨(Dictionary.get?_erase_of_ne hne table).symm,
    fun hnone c h hl hc => .step hg hn (keys n hne hnone) hl hc⟩

end Pass

/-! ## Entries that are left out -/

section

variable {ρ : Renumbering} {entries entries' : List (String × Callable)}

theorem Dictionary.erase_cons_self {α : Type} (name : String) (a : α) (d : List (String × α)) :
    erase name ((name, a) :: d) = erase name d := by
  rw [erase, erase, List.filter_cons_of_neg (by simp)]

theorem Dictionary.erase_cons_of_ne {α : Type} {name n : String} (h : n ≠ name) (a : α)
    (d : List (String × α)) : erase name ((n, a) :: d) = (n, a) :: erase name d := by
  rw [erase, erase, List.filter_cons_of_pos (by simpa using h)]

/-- With one more entry, sorting gives the same entries besides. -/
theorem Dictionary.erase_sorted {c : Callable} (distinct : (keys entries').Nodup)
    (more : entries'.Perm ((k, c) :: entries)) : erase k (sorted entries') = sorted entries := by
  have hkeys : (keys ((k, c) :: entries)).Nodup := (more.map Prod.fst).nodup_iff.mp distinct
  obtain ⟨hnot, hrest⟩ := List.nodup_cons.mp hkeys
  have hself : erase k ((k, c) :: entries) = entries := by
    rw [erase_cons_self, erase_of_get? (get?_eq_none_iff.mpr hnot)]
  have hperm : (erase k (sorted entries')).Perm (sorted entries) := by
    have hsorted : (erase k (sorted entries')).Perm (erase k ((k, c) :: entries)) :=
      ((sorted_perm distinct).trans more).filter _
    rw [hself] at hsorted
    exact hsorted.trans (sorted_perm hrest).symm
  refine hperm.eq_of_pairwise ?_ ((increasing_sorted entries').filter _) (increasing_sorted entries)
  exact fun x y _ _ hxy hyx => absurd (lt_trans hxy hyx) (lt_irrefl _)

theorem Callable.AllTwin.erase (h : Callable.AllTwin ρ entries entries') (name : String) :
    Callable.AllTwin ρ (Dictionary.erase name entries) (Dictionary.erase name entries') := by
  induction entries generalizing entries' with
  | nil => cases h; exact .nil
  | cons entry rest ih =>
      cases h with
      | cons n hc hrest =>
          by_cases hn : n = name
          · rw [hn, Dictionary.erase_cons_self, Dictionary.erase_cons_self]
            exact ih hrest
          · rw [Dictionary.erase_cons_of_ne hn, Dictionary.erase_cons_of_ne hn]
            exact .cons n hc (ih hrest)

end

/-! ## One world on both sides -/

/-- The numbers that are taken belong to themselves. -/
def Renumbering.taken (w : World) : Renumbering := .within (· < w.nextId) (· < w.nextId)

namespace Ledger.Books

variable {L : Ledger}

theorem twin_function (books : L.Books w) (hf : L.functions f) : f.Twin (.taken w) f :=
  Function.twin_self ⟨rfl, (books.functions hf).2⟩ ⟨rfl, (books.functions hf).1⟩

theorem twin_callable (books : L.Books w) {c : Callable} (hc : c.Known L) : c.Twin (.taken w) c :=
  c.twin_self fun f hf => books.twin_function (hc.functions f hf)

theorem twin_overrides (books : L.Books w) {overrides : List (String × Callable)}
    (known : Callable.AllKnown L overrides) : Callable.AllTwin (.taken w) overrides overrides := by
  refine Callable.allTwin_self overrides fun f hf => ?_
  obtain ⟨entry, he, hf⟩ := Callable.mem_functionsAll.mp hf
  exact books.twin_function ((known entry he).functions f hf)

theorem twin_world (books : L.Books w) : w.Twin (.taken w) w.outset w where
  live := by
    rintro i _ ⟨rfl, -⟩
    rfl
  lookup := by
    rintro i _ ⟨rfl, -⟩ name
    rcases hl : w.lookup i name with _ | (x | c)
    · exact .none
    · exact .some (.constant x)
    · exact .some (.callable (books.twin_callable (books.bound hl)))
  taken := by
    rintro m _ ⟨rfl, hm⟩
    exact ⟨hm, hm⟩
  placed := by
    rintro i _ ⟨rfl, hi⟩
    exact ⟨hi, hi⟩
  strict := rfl
  least := Nat.le_refl _
  cache := rfl

/-- A run that goes in lockstep with itself takes no number back. -/
theorem nextId_le {P : α → α → Prop} {x : Act α} (books : L.Books w)
    (h : (Act.twins (.taken w) w.outset).Runs P x x) : w.nextId ≤ (x w).2.nextId := by
  have hafter : World.Twin (.taken w) w.outset (x w).2 (x w).2 :=
    (h w w books.twin_world).after
  exact hafter.least

end Ledger.Books

/-! ## Preparation with one more override -/

namespace Substitution

variable {L : Ledger} {ρ : Renumbering} {o : Outset} {rest made made' : Substitution}
  {used used' : List String} {isolation isolation' : Isolation} {debug debug' : Bool}
  {u u' t t' : World}

theorem transparent_prepareReplacement (raw : Substitution) (name : String) (p : Function) :
    Act.Transparent (raw.prepareReplacement isolation debug name p) := fun w =>
  .mapReport _ (Pass.transparent_within
    (fun w => Pass.undoable_substituteCompiled (w := w) raw debug p) isolation debug w)

/-- A further step on the second side takes no number back. -/
theorem books_after {γ : Type} {P : γ → γ → Prop} {x : Act γ} {r : Except Fault γ}
    (books : L.Books u') (hx : Act.Transparent x)
    (hruns : (Act.twins (.taken u') u'.outset).Runs P x x) (h : x u' = (r, t')) :
    L.Books t' ∧ u'.Same t' ∧ u'.nextId ≤ t'.nextId := by
  have hle := books.nextId_le hruns
  have hsame := hx.same u'
  rw [h] at hle hsame
  exact ⟨books.of_same hsame hle, hsame, hle⟩

/-- Steps that go in lockstep and succeed. -/
theorem twins_ok {γ δ : Type} {P : γ → δ → Prop} {x : Act γ} {y : Act δ} {a : γ} {b : δ}
    (hruns : (Act.twins ρ o).Runs P x y) (twin : u.Twin ρ o u') (hx : x u = (.ok a, t))
    (hy : y u' = (.ok b, t')) : P a b ∧ t.Twin ρ o t' := by
  have hends : (Act.twins ρ o).Ends P (x u) (y u') := hruns u u' twin
  rw [hx, hy] at hends
  obtain ⟨b', v', heq, hab, hv⟩ := hends.of_ok
  cases heq
  exact ⟨hab, hv⟩

theorem prepareReplacement_congr (name : String) {p : Function}
    (h : Pass.substituteCompiled raw debug p (.start isolation w) =
      Pass.substituteCompiled table debug p (.start isolation w)) :
    raw.prepareReplacement isolation debug name p w =
      table.prepareReplacement isolation debug name p w := by
  rw [prepareReplacement, prepareReplacement, Run.mapReport_apply, Run.mapReport_apply,
    Pass.within_apply, Pass.within_apply]
  rw [Pass.State.start] at h
  rw [h]

/-- With one more override the others are prepared alike. -/
theorem prepareReplacements_erase (known : Callable.AllKnown L raw)
    (hraw : Callable.AllTwin ρ (Dictionary.erase k raw) (Dictionary.erase k raw))
    (hknown : Callable.AllKnown L rest) (hrest : Callable.AllTwin ρ rest rest)
    (unnamed : ∀ n p, (n, .function p) ∈ Dictionary.erase k rest → p.name ≠ k)
    (agree : ∀ n p, (n, .function p) ∈ Dictionary.erase k rest → ∀ isolation debug w, v.Same w →
      Pass.substituteCompiled raw debug p (.start isolation w) =
        Pass.substituteCompiled (Dictionary.erase k raw) debug p (.start isolation w))
    (hv : v.Same u') (books : L.Books u') (twin : u.Twin ρ o u')
    (h : prepareReplacements (Dictionary.erase k raw) isolation debug (Dictionary.erase k rest) u =
      (.ok (made, used), t))
    (h' : raw.prepareReplacements isolation' debug' rest u' = (.ok (made', used'), t')) :
    (t.Twin ρ o t' ∧ L.Books t' ∧ u'.Same t') ∧ ∀ n, n ≠ k →
      Option.Rel (Callable.Twin ρ) (Dictionary.get? n made) (Dictionary.get? n made') := by
  induction rest generalizing u u' made used made' used' with
  | nil =>
      cases h
      cases h'
      exact ⟨⟨twin, books, .refl _⟩, fun n _ => .none⟩
  | cons entry rest ih =>
      obtain ⟨name, c⟩ := entry
      have hc : c.Known L := hknown _ List.mem_cons_self
      have hknown' : Callable.AllKnown L rest := fun e he => hknown e (List.mem_cons_of_mem _ he)
      rw [prepareReplacements] at h'
      cases hrest with
      | cons _ htwin hrest =>
      by_cases hname : name = k
      · subst hname
        -- the override that is left out is prepared on the second side only
        rw [Dictionary.erase_cons_self] at h unnamed agree
        cases hp : raw.pending? c with
        | none =>
            rw [hp] at h'
            exact ih hknown' hrest unnamed agree hv books twin h h'
        | some p =>
            rw [hp] at h'
            obtain ⟨⟨a, matched⟩, u₁, ha, h'⟩ := Run.bind_eq_ok h'
            obtain ⟨⟨others, more⟩, t₁, hothers, h'⟩ := Run.bind_eq_ok h'
            cases h'
            obtain rfl := pending?_eq_some hp
            obtain ⟨books₁, hsame, hle⟩ := books_after books
              (transparent_prepareReplacement raw name p)
              (prepareReplacement_twins (books.twin_overrides known) name
                (books.twin_function hc.function)) ha
            have twin₁ := twin.of_same (.refl u) hsame (Nat.le_refl _) hle rfl
            obtain ⟨⟨htwin, hbooks, hsame'⟩, hmade⟩ :=
              ih hknown' hrest unnamed agree (hv.trans hsame) books₁ twin₁ h hothers
            refine ⟨⟨htwin, hbooks, hsame.trans hsame'⟩, fun n hn => ?_⟩
            rw [Dictionary.get?, if_neg (Ne.symm hn)]
            exact hmade n hn
      · -- all others are prepared on both sides, from tables that they do not tell apart
        rw [Dictionary.erase_cons_of_ne hname] at h unnamed agree
        rw [prepareReplacements, pending?_congr fun p hp =>
          Dictionary.get?_erase_of_ne (unnamed name p (hp ▸ List.mem_cons_self)) raw] at h
        have unnamed' := fun n p hp => unnamed n p (List.mem_cons_of_mem _ hp)
        have agree' := fun n p hp => agree n p (List.mem_cons_of_mem _ hp)
        cases hp : raw.pending? c with
        | none =>
            rw [hp] at h h'
            exact ih hknown' hrest unnamed' agree' hv books twin h h'
        | some p =>
            rw [hp] at h h'
            obtain ⟨⟨a, matched⟩, u₁, ha, h⟩ := Run.bind_eq_ok h
            obtain ⟨⟨others, more⟩, _, hothers, h⟩ := Run.bind_eq_ok h
            obtain ⟨⟨a', matched'⟩, u₁', ha', h'⟩ := Run.bind_eq_ok h'
            obtain ⟨⟨others', more'⟩, _, hothers', h'⟩ := Run.bind_eq_ok h'
            cases h
            cases h'
            obtain rfl := pending?_eq_some hp
            obtain ⟨books₁, hsame, -⟩ := books_after books
              (transparent_prepareReplacement raw name p)
              (prepareReplacement_twins (books.twin_overrides known) name
                (books.twin_function hc.function)) ha'
            rw [prepareReplacement_congr name (agree name p List.mem_cons_self _ _ u' hv)] at ha'
            have hp' : p.Twin ρ p := by
              cases htwin with
              | function hf => exact hf
            obtain ⟨⟨halike, -⟩, twin₁⟩ :=
              twins_ok (prepareReplacement_twins hraw name hp') twin ha ha'
            obtain ⟨⟨htwin', hbooks, hsame'⟩, hmade⟩ :=
              ih hknown' hrest unnamed' agree' (hv.trans hsame) books₁ twin₁ hothers hothers'
            refine ⟨⟨htwin', hbooks, hsame.trans hsame'⟩, fun n hn => ?_⟩
            rw [Dictionary.get?, Dictionary.get?]
            split
            · exact .some (.artifact halike.alike)
            · exact hmade n hn

/-- Of replacements made alike, tables are made alike. -/
theorem convertOthers_erase (hmade : ∀ n, n ≠ k →
      Option.Rel (Callable.Twin ρ) (Dictionary.get? n made) (Dictionary.get? n made'))
    (hknown : Callable.AllKnown L rest) (hrest : Callable.AllTwin ρ rest rest)
    (books : L.Books u') (twin : u.Twin ρ o u')
    (h : convertOthers made (Dictionary.erase k rest) u = (.ok table, t))
    (h' : convertOthers made' rest u' = (.ok table', t')) :
    t.Twin ρ o t' ∧ Callable.AllTwin ρ table (Dictionary.erase k table') := by
  induction rest generalizing u u' table table' with
  | nil =>
      cases h
      cases h'
      exact ⟨twin, .nil⟩
  | cons entry rest ih =>
      obtain ⟨name, c⟩ := entry
      have hc : c.Known L := hknown _ List.mem_cons_self
      have hknown' : Callable.AllKnown L rest := fun e he => hknown e (List.mem_cons_of_mem _ he)
      rw [convertOthers_cons] at h'
      obtain ⟨r', u₁', hr', h'⟩ := Run.bind_eq_ok h'
      obtain ⟨others', _, hothers', h'⟩ := Run.bind_eq_ok h'
      cases h'
      cases hrest with
      | cons _ htwin hrest =>
      -- converting leaves the world as it was, apart from numbers
      have hstep : L.Books u₁' ∧ u'.Same u₁' ∧ u'.nextId ≤ u₁'.nextId := by
        cases hm : Dictionary.get? name made' with
        | some m =>
            rw [hm] at hr'
            cases hr'
            exact ⟨books, .refl _, Nat.le_refl _⟩
        | none =>
            rw [hm] at hr'
            exact books_after books c.transparent_convert
              (Callable.convert_twins (books.twin_callable hc)) (Run.mapReport_eq_ok hr')
      obtain ⟨books₁, hsame, hle⟩ := hstep
      by_cases hname : name = k
      · subst hname
        rw [Dictionary.erase_cons_self] at h ⊢
        exact ih hknown' hrest books₁ (twin.of_same (.refl u) hsame (Nat.le_refl _) hle rfl) h
          hothers'
      · rw [Dictionary.erase_cons_of_ne hname] at h ⊢
        rw [convertOthers_cons] at h
        obtain ⟨r, u₁, hr, h⟩ := Run.bind_eq_ok h
        obtain ⟨others, _, hothers, h⟩ := Run.bind_eq_ok h
        cases h
        have hboth : r.Twin ρ r' ∧ u₁.Twin ρ o u₁' := by
          have hget := hmade name hname
          generalize Dictionary.get? name made = m at hget hr
          generalize Dictionary.get? name made' = m' at hget hr'
          cases hget with
          | some hm =>
              cases hr
              cases hr'
              exact ⟨hm, twin⟩
          | none =>
              exact twins_ok (Callable.convert_twins htwin) twin (Run.mapReport_eq_ok hr)
                (Run.mapReport_eq_ok hr')
        obtain ⟨hr, twin₁⟩ := hboth
        obtain ⟨htwin', hothers⟩ := ih hknown' hrest books₁ twin₁ hothers hothers'
        exact ⟨htwin', .cons name hr hothers⟩

/-- The tables for the last pass: with one more override, the entries besides are alike. -/
theorem prepare_erase (known : Callable.AllKnown L raw)
    (hraw : Callable.AllTwin ρ raw raw)
    (unnamed : ∀ n p, (n, .function p) ∈ Dictionary.erase k raw → p.name ≠ k)
    (agree : ∀ n p, (n, .function p) ∈ Dictionary.erase k raw → ∀ isolation debug w, v.Same w →
      Pass.substituteCompiled raw debug p (.start isolation w) =
        Pass.substituteCompiled (Dictionary.erase k raw) debug p (.start isolation w))
    (hv : v.Same u') (books : L.Books u') (twin : u.Twin ρ o u')
    (h : prepare (Dictionary.erase k raw) isolation debug u = (.ok (table, used), t))
    (h' : raw.prepare isolation' debug' u' = (.ok (table', used'), t')) :
    t.Twin ρ o t' ∧ Callable.AllTwin ρ table (Dictionary.erase k table') := by
  obtain ⟨⟨made, matched⟩, u₁, hmade, h⟩ := Run.bind_eq_ok h
  obtain ⟨_, _, hconverted, h⟩ := Run.bind_eq_ok h
  obtain ⟨⟨made', matched'⟩, u₁', hmade', h'⟩ := Run.bind_eq_ok h'
  obtain ⟨_, _, hconverted', h'⟩ := Run.bind_eq_ok h'
  cases h
  cases h'
  obtain ⟨⟨twin₁, books₁, -⟩, halike⟩ := prepareReplacements_erase known (hraw.erase k) known hraw
    unnamed agree hv books twin hmade hmade'
  exact convertOthers_erase halike known hraw books₁ twin₁ hconverted hconverted'

end Substitution

/-! ## Specializations with one more override -/

namespace Function

variable {L : Ledger} {overrides overrides' : List (String × Callable)} {debug debug' : Bool}
  {a b : Artifact} {c : Callable}

/-- The search for cycles leaves the world as it is. -/
theorem checkAcyclic_state {r : Except Fault Unit} {u : World}
    (h : f.checkAcyclic overrides w = (r, u)) : u = w := by
  rw [checkAcyclic, Run.bind_apply, Run.get_apply] at h
  dsimp only at h
  rw [Run.bind_apply, Run.ofExcept_apply] at h
  cases hbuild : CallGraph.build w f (Dictionary.keys overrides) with
  | error e =>
      rw [hbuild] at h
      cases h
      rfl
  | ok g =>
      rw [hbuild] at h
      dsimp only at h
      generalize g.findCycle = cycle at h
      cases cycle with
      | none =>
          cases h
          rfl
      | some names =>
          cases h
          rfl

/-- An override that meets no call site, under a name that no replacement has, makes no difference
to a specialization. -/
theorem specializeFresh_idle (books : L.Books w) (hf : L.functions f)
    (known : Callable.AllKnown L overrides') (distinct : (Dictionary.keys overrides').Nodup)
    (more : overrides'.Perm ((k, c) :: overrides)) (spares : f.Spares overrides w k)
    (unnamed : ∀ n p, (n, .function p) ∈ overrides → p.name ≠ k)
    (h : (f.specializeFresh overrides debug w).1 = .ok a)
    (h' : (f.specializeFresh overrides' debug' w).1 = .ok b) : a.Alike b := by
  have hkeys : (Dictionary.keys ((k, c) :: overrides)).Nodup :=
    (more.map Prod.fst).nodup_iff.mp distinct
  have distinct₀ : (Dictionary.keys overrides).Nodup := (List.nodup_cons.mp hkeys).2
  have hsorted := Dictionary.erase_sorted distinct more
  have hmem : ∀ entry, entry ∈ Dictionary.erase k (Dictionary.sorted overrides') →
      entry ∈ overrides := by
    intro entry he
    rw [hsorted] at he
    exact (Dictionary.sorted_perm distinct₀).mem_iff.mp he
  have hnone : ∀ n, n ≠ k → Dictionary.get? n (Dictionary.sorted overrides') = none →
      Dictionary.get? n overrides = none := by
    intro n hn hnone
    rw [← Dictionary.get?_sorted distinct₀, ← hsorted, Dictionary.get?_erase_of_ne hn]
    exact hnone
  obtain ⟨_, u, hcheck, h⟩ := Run.bind_eq_ok (Prod.ext h rfl)
  obtain ⟨_, u', hcheck', h'⟩ := Run.bind_eq_ok (Prod.ext h' rfl)
  rw [checkAcyclic_state hcheck] at h
  rw [checkAcyclic_state hcheck'] at h'
  obtain ⟨table, used, t, s, s₁, hprepare, hpass, -⟩ := specializeAnew_steps h
  obtain ⟨table', used', t', s', s₁', hprepare', hpass', -⟩ := specializeAnew_steps h'
  have hknown : Callable.AllKnown L (Dictionary.sorted overrides') := fun entry he =>
    known entry ((Dictionary.sorted_perm distinct).mem_iff.mp he)
  obtain ⟨hsame, htable', -⟩ :=
    Substitution.prepare_eq_ok (Dictionary.nodup_keys_sorted overrides') hprepare'
  rw [← hsorted] at hprepare
  obtain ⟨twin, htable⟩ := Substitution.prepare_erase hknown (books.twin_overrides hknown)
    (fun n p hp => unnamed n p (hmem _ hp))
    (fun n p hp isolation debug w hw => Pass.substituteCompiled_erase hw hnone
      (fun g => spares.replacement n p g (hmem _ hp)) isolation)
    (.refl _) books books.twin_world hprepare hprepare'
  rw [Pass.substituteCompiled_erase hsame (fun n hn hget => hnone n hn (by
    rw [Dictionary.get?_eq_none_iff, ← htable', ← Dictionary.get?_eq_none_iff]
    exact hget)) spares.function] at hpass'
  have hends : (Pass.twins (.taken w) t t').Ends (Artifact.NewAlike w.nextId)
      (Pass.substituteCompiled table debug f (.start w.settings.isolation t))
      (Pass.substituteCompiled (Dictionary.erase k table') debug' f
        (.start w.settings.isolation t')) :=
    Pass.substituteCompiled_twins twin htable (books.twin_function hf)
  rw [hpass, hpass'] at hends
  obtain ⟨b', _, heq, halike, -⟩ := hends.of_ok
  cases heq
  exact halike.alike

end Function

/-! ## Sessions -/

section

variable {ρ : Renumbering} {streams : List KeyStream} {L : Ledger} {w' : World} {g g' : Gateway}
  {ks ks' : Keywords} {r r' : Request}

/-- What an engine gives is alike to what it would make if it kept nothing. -/
theorem Engine.specialize_fresh (h : Engine ρ streams L w w') (free : CollisionFree streams)
    (hg : g.Given ρ L g') (hks : ks.Given ρ L ks') (hr : Request.ofKeywords g.function ks = .ok r)
    (asked : w.asksFor g.function r.overrides ⊆ streams) (debug : Bool) :
    Outcomes Artifact.Alike (g.function.specialize r.overrides debug w).1
      (g.function.specializeFresh (unwrapOverrides r.overrides) debug
        { w with settings := { w.settings with cache := false } }).1 := by
  obtain ⟨r', hr', hrr⟩ := Request.ofKeywords_twin hg.twin.toKin hks.twin hr
  have hkept := h.specialize_tuned (t := w.settings) free hg hks hr hrr rfl rfl (fun hcache => by
    rw [World.asksFor, if_pos hcache] at asked
    exact asked (List.mem_singleton_self _)) debug
  have hfresh := h.specialize_tuned (t := { w.settings with cache := false }) free hg hks hr hrr rfl
    rfl (fun hcache => absurd hcache Bool.false_ne_true) debug
  rw [Function.specialize_of_uncached (w := { w with settings := { w.settings with cache := false } })
    rfl] at hfresh
  exact hkept.meet hfresh fun _ _ _ ha hb => ha.trans hb.symm

end

namespace Client.Twin

variable {ρ : Renumbering} {L : Ledger} {s s' : Client}

theorem gateway (h : s.Twin ρ L s') {place : Nat} {g : Gateway}
    (hobject : s.objects[place]? = some (.gateway g)) : ∃ g' : Gateway, g.Given ρ L g' := by
  have hobjects := getElem?_twins h.objects place
  rw [hobject] at hobjects
  generalize s'.objects[place]? = o at hobjects
  cases hobjects with
  | some hc =>
      obtain ⟨htwin, hknown⟩ := hc
      cases htwin with
      | gateway hg => exact ⟨_, hg, hknown.gateway⟩

theorem given (h : s.Twin ρ L s') {args : List (String × Argument)} {ks : Keywords}
    (hkeywords : s.keywords args = some ks) : ∃ ks' : Keywords, ks.Given ρ L ks' := by
  have hargs := h.keywords args
  rw [hkeywords] at hargs
  generalize s'.keywords args = o at hargs
  cases hargs with
  | some hks => exact ⟨_, hks⟩

end Client.Twin

/-- In whatever state a session is, a gateway that the client holds is specialized alike with and
without an override that meets no call site, provided that no replacement is called what it is given
for. -/
theorem idle_ignored {settings : Settings} {history : List Session.Command} {s : Session}
    (reached : (Session.start settings).after history = s) {place : Nat} {g : Gateway}
    (hobject : s.client.objects[place]? = some (.gateway g))
    {args args' : List (String × Argument)} {ks ks' : Keywords}
    (hkeywords : s.client.keywords args = some ks) (hkeywords' : s.client.keywords args' = some ks')
    {r r' : Request} (hrequest : Request.ofKeywords g.function ks = .ok r)
    (hrequest' : Request.ofKeywords g.function ks' = .ok r') {k : String} {c : Callable}
    (more : r'.overrides.Perm ((k, c) :: r.overrides))
    (spares : g.function.Spares (unwrapOverrides r.overrides) s.world k)
    (unnamed : ∀ n p, (n, .function p) ∈ unwrapOverrides r.overrides → p.name ≠ k)
    (free : CollisionFree ((Session.start settings).asks history ++
      (s.world.asksFor g.function r.overrides ++ s.world.asksFor g.function r'.overrides)))
    {debug debug' : Bool} {a b : Artifact}
    (ha : (g.function.specialize r.overrides debug s.world).1 = .ok a)
    (hb : (g.function.specialize r'.overrides debug' s.world).1 = .ok b) : a.Alike b := by
  -- The session is compared with one that keeps nothing.
  obtain ⟨ρ, L, -, -, hsession⟩ := (Session.twin_start settings settings.cache _).after free history
    (List.subset_append_left _ _)
  change Session.Twin ρ _ L ((Session.start settings).after history) _ at hsession
  rw [reached] at hsession
  obtain ⟨hengine, hclient⟩ := hsession
  obtain ⟨g', hg⟩ := hclient.gateway hobject
  obtain ⟨ks₀, hks⟩ := hclient.given hkeywords
  obtain ⟨ks₀', hks'⟩ := hclient.given hkeywords'
  have hout := hengine.specialize_fresh free hg hks hrequest
    (fun _ h => List.mem_append_right _ (List.mem_append_left _ h)) debug
  have hout' := hengine.specialize_fresh free hg hks' hrequest'
    (fun _ h => List.mem_append_right _ (List.mem_append_right _ h)) debug'
  rw [ha] at hout
  rw [hb] at hout'
  obtain ⟨a₀, ha₀, haa⟩ := hout.ok_left
  obtain ⟨b₀, hb₀, hbb⟩ := hout'.ok_left
  have books := (hengine.tuned (t := { s.world.settings with cache := false }) rfl rfl).books
  have hkeys : ∀ overrides : List (String × Callable),
      Dictionary.keys (unwrapOverrides overrides) = Dictionary.keys overrides := by
    intro overrides
    rw [Dictionary.keys, unwrapOverrides, List.map_map]
    rfl
  have hmore : (unwrapOverrides r'.overrides).Perm
      ((k, c.unwrapped) :: unwrapOverrides r.overrides) := more.map _
  have distinct : (Dictionary.keys (unwrapOverrides r'.overrides)).Nodup := by
    rw [hkeys]
    exact (Request.overrides_ofKeywords hrequest').1
  have hab : a₀.Alike b₀ := Function.specializeFresh_idle books hg.known
    (Request.known_overrides hrequest' hks'.known).unwrapOverrides distinct hmore
    (spares.of_lookup fun _ _ => rfl) unnamed ha₀ hb₀
  exact haa.trans (hab.trans hbb.symm)

/-- A session of an engine that keeps nothing, after its opening. -/
def Session.uncached : Session := (Session.start { cache := false }).after Session.opening

theorem Session.uncached_asksNothing (f : Function) (overrides overrides' : List (String × Callable)) :
    CollisionFree ((Session.start { cache := false }).asks Session.opening ++
      (Session.uncached.world.asksFor f overrides ++ Session.uncached.world.asksFor f overrides')) := by
  have hopening : (Session.start { cache := false }).asks Session.opening = [] :=
    List.isEmpty_iff.mp (by decide +kernel)
  have hnone : ∀ overrides, Session.uncached.world.asksFor f overrides = [] :=
    fun _ => if_neg (by decide +kernel)
  rw [hopening, hnone, hnone]
  exact .of_record_eq (by simp) (by simp)

/-- Whether the client holds a gateway of a function that calls only `g` and then a function that
calls nothing, and the gateway is specialized with the function given for `g`, and with the function
given for a further name as well. -/
def Session.givesTwice (s : Session) (name : String) : Bool :=
  match s.client.objects[0]?, s.client.objects[1]? with
  | some (Callable.gateway g), some (Callable.function p) =>
    g.function.sourceCalls == ["g"] && p.sourceCalls == [] && p.name != name &&
      (g.function.specialize [("g", .function p)] false s.world).1.isOk &&
      (g.function.specialize [("g", .function p), (name, .function p)] false s.world).1.isOk
  | _, _ => false

theorem Session.exists_of_givesTwice {s : Session} {name : String} (h : s.givesTwice name = true) :
    ∃ g p, s.client.objects[0]? = some (.gateway g) ∧ s.client.objects[1]? = some (.function p) ∧
      g.function.sourceCalls = ["g"] ∧ p.sourceCalls = [] ∧ p.name ≠ name ∧
      (∃ a, (g.function.specialize [("g", .function p)] false s.world).1 = .ok a) ∧
      ∃ b, (g.function.specialize [("g", .function p), (name, .function p)] false s.world).1 =
        .ok b := by
  rw [givesTwice] at h
  split at h
  · next g p hg hp =>
      simp only [Bool.and_eq_true, beq_iff_eq, bne_iff_ne] at h
      obtain ⟨⟨⟨⟨hcalls, hleaf⟩, hname⟩, hok⟩, hok'⟩ := h
      refine ⟨g, p, hg, hp, hcalls, hleaf, hname, ?_, ?_⟩
      · cases ha : (g.function.specialize [("g", .function p)] false s.world).1 with
        | error e =>
            rw [ha] at hok
            cases hok
        | ok a => exact ⟨a, rfl⟩
      · cases hb : (g.function.specialize [("g", .function p), (name, .function p)] false
            s.world).1 with
        | error e =>
            rw [hb] at hok'
            cases hok'
        | ok b => exact ⟨b, rfl⟩
  · cases h

/-- The first function, with the second one in the place of `g`, is specialized alike whether or not
the second one is also given for a name that nothing calls. -/
theorem idle_ignored_opening :
    ∃ g p r r', Session.uncached.client.objects[0]? = some (.gateway g) ∧
      Session.uncached.client.objects[1]? = some (.function p) ∧
      Request.ofKeywords g.function [("g", .override (.function p))] = .ok r ∧
      Request.ofKeywords g.function
        [("g", .override (.function p)), ("idle", .override (.function p))] = .ok r' ∧
      ∃ a b : Artifact, a.Alike b ∧
        (g.function.specialize r.overrides false Session.uncached.world).1 = .ok a ∧
        (g.function.specialize r'.overrides false Session.uncached.world).1 = .ok b := by
  have hgives : Session.uncached.givesTwice "idle" = true := by decide +kernel
  obtain ⟨g, p, hg, hp, hcalls, hleaf, hname, ⟨a, ha⟩, b, hb⟩ := Session.exists_of_givesTwice hgives
  have hkeywords : Session.uncached.client.keywords [("g", .override 1)] =
      some [("g", .override (.function p))] := by
    simp [Client.keywords, Client.resolve, hp]
  have hkeywords' : Session.uncached.client.keywords [("g", .override 1), ("idle", .override 1)] =
      some [("g", .override (.function p)), ("idle", .override (.function p))] := by
    simp [Client.keywords, Client.resolve, hp]
  have given : ∀ n q, (n, Callable.function q) ∈ unwrapOverrides [("g", .function p)] → q = p := by
    intro n q hq
    exact Callable.function.inj (Prod.mk.inj (List.mem_singleton.mp hq)).2
  have spares : g.function.Spares [("g", .function p)] Session.uncached.world "idle" := by
    refine ⟨fun h hh => ?_, fun n q h hq hh => ?_⟩
    · have hself := hh.eq_of_overridden fun n hn => by
        rw [hcalls, List.mem_singleton] at hn
        rw [hn]
        exact Option.some_ne_none _
      rw [hself, hcalls]
      decide
    · obtain rfl := given n q hq
      have hself := hh.eq_of_overridden fun n hn => by
        rw [hleaf] at hn
        exact absurd hn List.not_mem_nil
      rw [hself, hleaf]
      exact List.not_mem_nil
  have unnamed : ∀ n q, (n, Callable.function q) ∈ unwrapOverrides [("g", .function p)] →
      q.name ≠ "idle" := fun n q hq => by
    rw [given n q hq]
    exact hname
  have hab : a.Alike b := idle_ignored (s := Session.uncached) rfl hg hkeywords hkeywords' rfl rfl
    (.swap _ _ _) spares unnamed (Session.uncached_asksNothing _ _ _) ha hb
  exact ⟨g, p, _, _, hg, hp, rfl, rfl, a, b, hab, ha, hb⟩

/-! ## A name that a replacement has -/

namespace Function

/-- The functions of the text that are bound. -/
def nestFunctions : List Function :=
  [nestA, nestB, nestC, nestEntry, nestFirst, nestSecond, nestLast]

theorem mem_nestFunctions {id : NamespaceId} {n : String} {c : Callable} {h : Function}
    (hl : nestWorld.lookup id n = some (.callable c)) (hc : c.plain? = some h) :
    h ∈ nestFunctions := by
  obtain ⟨ns, hns, hget⟩ := Option.bind_eq_some_iff.mp hl
  obtain ⟨entry, hfind, rfl⟩ := Option.map_eq_some_iff.mp hns
  obtain rfl := List.mem_singleton.mp (List.mem_of_find?_eq_some hfind)
  have hmem := Dictionary.mem_of_get? hget
  simp only [List.mem_cons, List.not_mem_nil, or_false, Prod.mk.injEq, Global.callable.injEq]
    at hmem
  rcases hmem with ⟨-, rfl⟩ | ⟨-, rfl⟩ | ⟨-, rfl⟩ | ⟨-, rfl⟩ | ⟨-, rfl⟩ | ⟨-, rfl⟩ | ⟨-, rfl⟩
  all_goals
    cases hc
    simp [nestFunctions]

/-- What takes part is bound, if the replacements are. -/
theorem involves_nestFunctions
    (replacements : ∀ n c h, Dictionary.get? n raw = some c → c.plain? = some h →
      h ∈ nestFunctions)
    {h : Function} (hh : nestEntry.Involves raw nestWorld h) : h ∈ nestFunctions := by
  cases hh with
  | refl => simp [nestFunctions]
  | replacement hget hc => exact replacements _ _ _ hget hc
  | callee _ _ hl hc => exact mem_nestFunctions hl hc

/-- With an override for what the first replacement is called. -/
def nestNamed : List (String × Callable) := nestPair ++ [("first", .function nestC)]

/-- Nothing calls the name of the first replacement; if it is overridden as well, the replacement is
taken as it is, and what it calls is not replaced. -/
theorem specialize_not_idle :
    ∃ a b w w', nestEntry.specialize nestPair false nestWorld = (.ok a, w) ∧
      nestEntry.specialize nestNamed false nestWorld = (.ok b, w') ∧
      (∀ h, nestEntry.Involves nestNamed nestWorld h →
        ¬ h.definition.body.Calls ⟨"first", []⟩) ∧
      nestEntry.Spares nestPair nestWorld "first" ∧
      a.call ampleFuel [.bool true] ≠ b.call ampleFuel [.bool true] := by
  have hcheck : ((nestEntry.specialize nestPair false nestWorld).1.toOption.any fun a =>
      Pass.isBool false (a.call ampleFuel [.bool true])) = true := by decide +kernel
  have hcheck' : ((nestEntry.specialize nestNamed false nestWorld).1.toOption.any fun b =>
      Pass.isBool true (b.call ampleFuel [.bool true])) = true := by decide +kernel
  have hnone : ∀ k ∈ nestFunctions,
      ⟨"first", []⟩ ∉ k.definition.body.callSites.map CallSite.callee := by decide +kernel
  have hnamed : ∀ n c h, Dictionary.get? n nestNamed = some c → c.plain? = some h →
      h ∈ nestFunctions := by
    intro n c h hget hc
    have hmem := Dictionary.mem_of_get? hget
    simp only [nestNamed, nestPair, List.cons_append, List.nil_append, List.mem_cons,
      List.not_mem_nil, or_false, Prod.mk.injEq] at hmem
    rcases hmem with ⟨-, rfl⟩ | ⟨-, rfl⟩ | ⟨-, rfl⟩
    all_goals
      cases hc
      simp [nestFunctions]
  have hpair : ∀ n c h, Dictionary.get? n nestPair = some c → c.plain? = some h →
      h ∈ nestFunctions := by
    intro n c h hget hc
    obtain rfl | rfl := nestPair_replaces hget
    all_goals
      cases hc
      simp [nestFunctions]
  have spares : nestEntry.Spares nestPair nestWorld "first" := by
    refine .of_calls (by decide) nestEntry_loaded.readsBack fun h hh => ?_
    rw [Block.calls_iff]
    exact hnone h (involves_nestFunctions hpair hh)
  rcases h : nestEntry.specialize nestPair false nestWorld with ⟨e | a, w⟩
  · rw [h] at hcheck
    cases hcheck
  · rcases h' : nestEntry.specialize nestNamed false nestWorld with ⟨e | b, w'⟩
    · rw [h'] at hcheck'
      cases hcheck'
    · rw [h] at hcheck
      rw [h'] at hcheck'
      refine ⟨a, b, w, w', rfl, rfl, fun k hk => ?_, spares, fun heq => ?_⟩
      · rw [Block.calls_iff]
        exact hnone k (involves_nestFunctions hnamed hk)
      · rw [Pass.eq_ok_of_isBool hcheck, Pass.eq_ok_of_isBool hcheck'] at heq
        cases heq

end Function

end Graft
