import Graft.Proofs.Keys
import Graft.Proofs.Lockstep

/-!
# Requests of twins

Keyword arguments that are twins are sorted alike, and are wrong in the same way if they are wrong.
What is overridden was given, and no name is overridden twice.
-/

namespace Graft

open Correspondence (keeping)

variable {ρ σ : Renumbering} {L M : Ledger}

/-! ## Keyword arguments -/

inductive KeywordArgument.Twin (ρ : Renumbering) : KeywordArgument → KeywordArgument → Prop
  | flag (on : Bool) : KeywordArgument.Twin ρ (.flag on) (.flag on)
  | value (v : Value) : KeywordArgument.Twin ρ (.value v) (.value v)
  | override {c c' : Callable} : c.Twin ρ c' → KeywordArgument.Twin ρ (.override c) (.override c')

namespace Keywords

/-- Twins under the same names. -/
abbrev Twin (ρ : Renumbering) : Keywords → Keywords → Prop :=
  List.Forall₂ fun k k' => k.1 = k'.1 ∧ KeywordArgument.Twin ρ k.2 k'.2

/-- All overrides are known. -/
def Known (L : Ledger) (ks : Keywords) : Prop := ∀ n c, (n, .override c) ∈ ks → c.Known L

theorem ofOverrides_twin {l l' : List (String × Callable)} (h : Callable.AllTwin ρ l l') :
    Twin ρ (.ofOverrides l) (.ofOverrides l') := by
  induction l generalizing l' with
  | nil => cases h; exact .nil
  | cons entry rest ih =>
      cases h with
      | cons n hc hrest => exact .cons ⟨rfl, .override hc⟩ (ih hrest)

theorem ofOverrides_known {l : List (String × Callable)} (h : Callable.AllKnown L l) :
    Known L (.ofOverrides l) := by
  intro n c hc
  obtain ⟨entry, he, heq⟩ := List.mem_map.mp hc
  obtain ⟨rfl, hoverride⟩ := Prod.mk.inj heq
  cases hoverride
  exact h entry he

theorem Known.append {ks more : Keywords} (h : Known L ks) (h' : Known L more) :
    Known L (ks ++ more) := fun n c hc => (List.mem_append.mp hc).elim (h n c) (h' n c)

end Keywords

/-! ## Requests -/

namespace Request

/-- The requests differ at most in numbers. -/
structure Twin (ρ : Renumbering) (r r' : Request) : Prop where
  returnCallable : r.returnCallable = r'.returnCallable
  debug : r.debug = r'.debug
  values : r.values = r'.values
  overrides : Callable.AllTwin ρ r.overrides r'.overrides

variable {f f' : Function} {r r' q : Request} {ks ks' : Keywords}

/-- Twins are taken in alike, or are wrong in the same way. -/
theorem add_twin (hf : f.Kin ρ f') (hr : r.Twin ρ r') (name : String) {k k' : KeywordArgument}
    (hk : KeywordArgument.Twin ρ k k') :
    (∃ q q', r.add f name k = .ok q ∧ r'.add f' name k' = .ok q' ∧ q.Twin ρ q') ∨
      ∃ p, r.add f name k = .error p ∧ r'.add f' name k' = .error p := by
  cases hk with
  | flag on =>
      rw [add, add]
      cases Control.ofName? name with
      | none => exact .inr ⟨_, rfl, rfl⟩
      | some c =>
          cases c with
          | returnCallable => exact .inl ⟨_, _, rfl, rfl, rfl, hr.debug, hr.values, hr.overrides⟩
          | debug => exact .inl ⟨_, _, rfl, rfl, hr.returnCallable, rfl, hr.values, hr.overrides⟩
  | value v =>
      rw [add, add, hf.params, hf.name]
      split
      · exact .inl ⟨_, _, rfl, rfl, hr.returnCallable, hr.debug, by rw [hr.values], hr.overrides⟩
      · exact .inr ⟨_, rfl, rfl⟩
  | override hc =>
      rw [add, add]
      cases Control.ofName? name with
      | none =>
          exact .inl ⟨_, _, rfl, rfl, hr.returnCallable, hr.debug, hr.values,
            hr.overrides.append (.cons name hc .nil)⟩
      | some c => exact .inr ⟨_, rfl, rfl⟩

theorem addAll_twin (hf : f.Kin ρ f') (seen : List String) (hr : r.Twin ρ r')
    (hks : Keywords.Twin ρ ks ks') :
    (∃ q q', addAll f seen r ks = .ok q ∧ addAll f' seen r' ks' = .ok q' ∧ q.Twin ρ q') ∨
      ∃ p, addAll f seen r ks = .error p ∧ addAll f' seen r' ks' = .error p := by
  induction hks generalizing seen r r' with
  | nil => exact .inl ⟨r, r', rfl, rfl, hr⟩
  | @cons e e' rest rest' he hrest ih =>
      obtain ⟨name, k⟩ := e
      obtain ⟨_, k'⟩ := e'
      obtain ⟨rfl, hk⟩ := he
      rw [addAll, addAll]
      dsimp only at hk ⊢
      split
      · exact .inr ⟨_, rfl, rfl⟩
      · obtain ⟨q, q', hq, hq', hqq⟩ | ⟨p, hp, hp'⟩ := add_twin hf hr name hk
        · rw [hq, hq']
          exact ih _ hqq
        · rw [hp, hp']
          exact .inr ⟨p, rfl, rfl⟩

/-- Keyword arguments of twins are sorted alike. -/
theorem ofKeywords_twins {σ τ : Type} {states : σ → τ → Prop} (hf : f.Kin ρ f')
    (hks : Keywords.Twin ρ ks ks') :
    (keeping states).Runs (Twin ρ) (Run.ofOutcome (ofKeywords f ks))
      (Run.ofOutcome (ofKeywords f' ks')) := by
  rw [ofKeywords, ofKeywords, hf.nameSpan]
  have hstart : Twin ρ {} {} := ⟨rfl, rfl, rfl, .nil⟩
  obtain ⟨q, q', hq, hq', hqq⟩ | ⟨p, hp, hp'⟩ := addAll_twin hf [] hstart hks
  · rw [hq, hq']
    exact .pure hqq
  · rw [hp, hp']
    exact .fail _

theorem ofKeywords_twin (hf : f.Kin ρ f') (hks : Keywords.Twin ρ ks ks')
    (h : ofKeywords f ks = .ok r) : ∃ r', ofKeywords f' ks' = .ok r' ∧ r.Twin ρ r' := by
  have hstart : Twin ρ {} {} := ⟨rfl, rfl, rfl, .nil⟩
  rw [ofKeywords] at h
  obtain ⟨q, q', hq, hq', hqq⟩ | ⟨p, hp, -⟩ := addAll_twin hf [] hstart hks
  · rw [hq] at h
    cases h
    exact ⟨q', by rw [ofKeywords, hq'], hqq⟩
  · rw [hp] at h
    cases h

/-- What one more keyword argument can override. -/
theorem overrides_add {name : String} {k : KeywordArgument} (h : r.add f name k = .ok q) :
    q.overrides = r.overrides ∨ ∃ c, k = .override c ∧ q.overrides = r.overrides ++ [(name, c)] := by
  cases k with
  | flag on =>
      rw [add] at h
      split at h
      · next c _ =>
          cases h
          cases c <;> exact .inl rfl
      · cases h
  | value v =>
      rw [add] at h
      split at h
      · cases h
        exact .inl rfl
      · cases h
  | override c =>
      rw [add] at h
      split at h
      · cases h
      · cases h
        exact .inr ⟨c, rfl, rfl⟩

theorem overrides_addAll {seen : List String} (h : addAll f seen r ks = .ok q)
    (distinct : (Dictionary.keys r.overrides).Nodup)
    (hseen : ∀ n ∈ Dictionary.keys r.overrides, n ∈ seen) :
    (Dictionary.keys q.overrides).Nodup ∧
      ∀ entry ∈ q.overrides, entry ∈ r.overrides ∨ (entry.1, .override entry.2) ∈ ks := by
  induction ks generalizing seen r with
  | nil =>
      cases h
      exact ⟨distinct, fun _ he => .inl he⟩
  | cons e rest ih =>
      obtain ⟨name, k⟩ := e
      rw [addAll] at h
      split at h
      · cases h
      · next hnew =>
          rw [List.contains_iff_mem] at hnew
          split at h
          · next r₁ hadd =>
              rcases overrides_add hadd with heq | ⟨c, rfl, heq⟩
              · obtain ⟨hdistinct, hall⟩ := ih h (heq ▸ distinct)
                  (heq ▸ fun n hn => List.mem_cons_of_mem _ (hseen n hn))
                rw [heq] at hall
                exact ⟨hdistinct, fun entry he =>
                  (hall entry he).imp_right (List.mem_cons_of_mem _)⟩
              · -- a new override has a name that was not seen
                have hkeys : Dictionary.keys r₁.overrides = Dictionary.keys r.overrides ++ [name] := by
                  rw [heq, Dictionary.keys, List.map_append]
                  rfl
                obtain ⟨hdistinct, hall⟩ := ih h
                  (by
                    rw [hkeys, List.nodup_append]
                    refine ⟨distinct, by simp, fun a ha b hb => ?_⟩
                    rw [List.mem_singleton.mp hb]
                    exact fun hab => hnew (hab ▸ hseen a ha))
                  (by
                    rw [hkeys]
                    intro n hn
                    rcases List.mem_append.mp hn with hn | hn
                    · exact List.mem_cons_of_mem _ (hseen n hn)
                    · exact List.mem_singleton.mp hn ▸ List.mem_cons_self)
                refine ⟨hdistinct, fun entry he => ?_⟩
                rcases hall entry he with he | he
                · rw [heq] at he
                  rcases List.mem_append.mp he with he | he
                  · exact .inl he
                  · rw [List.mem_singleton.mp he]
                    exact .inr List.mem_cons_self
                · exact .inr (List.mem_cons_of_mem _ he)
          · cases h

/-- No name is overridden twice, and what overrides it was given. -/
theorem overrides_ofKeywords (h : ofKeywords f ks = .ok q) :
    (Dictionary.keys q.overrides).Nodup ∧
      ∀ entry ∈ q.overrides, (entry.1, .override entry.2) ∈ ks := by
  rw [ofKeywords] at h
  split at h
  · next hadd =>
      cases h
      obtain ⟨hdistinct, hall⟩ := overrides_addAll hadd List.nodup_nil fun n hn => nomatch hn
      exact ⟨hdistinct, fun entry he => (hall entry he).resolve_left List.not_mem_nil⟩
  · cases h

theorem known_overrides (h : ofKeywords f ks = .ok q) (hks : Keywords.Known L ks) :
    Callable.AllKnown L q.overrides :=
  fun entry he => hks _ _ ((overrides_ofKeywords h).2 entry he)

end Request

/-! ## Arguments -/

namespace Function.Kin

variable {f f' : Function}

theorem fillAll (h : f.Kin ρ f') (slots : List (Option Value)) (named : List (String × Value)) :
    f.fillAll slots named = f'.fillAll slots named := by
  have hfill : f.fill = f'.fill := by
    funext slots name v
    rw [fill, fill, givenTwice, givenTwice, h.params, h.nameSpan]
  induction named generalizing slots with
  | nil => rfl
  | cons entry rest ih =>
      obtain ⟨name, v⟩ := entry
      rw [Function.fillAll, Function.fillAll, hfill]
      exact congrArg _ (funext ih)

theorem collect (h : f.Kin ρ f') (slots : List (Option Value)) (names : List String) :
    f.collect slots names = f'.collect slots names := by
  induction slots generalizing names with
  | nil => rfl
  | cons slot slots ih =>
      cases names with
      | nil => cases slot <;> rfl
      | cons name names =>
          cases slot with
          | none => rw [Function.collect, Function.collect, missing, missing, h.name, h.nameSpan]
          | some v => rw [Function.collect, Function.collect, ih]

/-- Arguments are put in order alike. -/
theorem arguments (h : f.Kin ρ f') (args : List Value) (named : List (String × Value)) :
    f.arguments args named = f'.arguments args named := by
  rw [Function.arguments, Function.arguments, h.arity, h.definition, h.params, funext (h.fillAll _)]
  simp only [funext fun slots => h.collect slots f'.params]

end Function.Kin

end Graft
