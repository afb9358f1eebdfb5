import Graft.Proofs.Rollback
import Mathlib.Data.String.Basic

/-!
# What replacements are made of

Before the pass over a function, every replacement is made an artifact or a primitive: a plain
function by a pass of its own, anything else by compilation. All of it happens in worlds that bind
what the first one binds.
-/

namespace Graft

/-! ## Sorted dictionaries -/

namespace Dictionary

variable {α : Type} {name other : String} {a : α} {d : List (String × α)}

theorem mem_of_get? (h : get? name d = some a) : (name, a) ∈ d := by
  induction d with
  | nil => cases h
  | cons entry rest ih =>
      obtain ⟨n, b⟩ := entry
      rw [get?] at h
      by_cases hn : n = name
      · rw [if_pos hn] at h
        obtain rfl := Option.some.inj h
        rw [hn]
        exact List.mem_cons_self
      · rw [if_neg hn] at h
        exact List.mem_cons_of_mem _ (ih h)

theorem get?_of_mem (distinct : (keys d).Nodup) (h : (name, a) ∈ d) : get? name d = some a := by
  induction d with
  | nil => cases h
  | cons entry rest ih =>
      obtain ⟨n, b⟩ := entry
      obtain ⟨hnot, hrest⟩ := List.nodup_cons.mp distinct
      rw [get?]
      rcases List.mem_cons.mp h with h | h
      · obtain ⟨rfl, rfl⟩ := Prod.mk.inj h
        rw [if_pos rfl]
      · have hne : n ≠ name := by
          intro hn
          rw [hn] at hnot
          exact hnot (List.mem_map.mpr ⟨_, h, rfl⟩)
        rw [if_neg hne]
        exact ih hrest h

theorem get?_eq_none_iff : get? name d = none ↔ name ∉ keys d := by
  induction d with
  | nil => simp [get?, keys]
  | cons entry rest ih =>
      obtain ⟨n, b⟩ := entry
      rw [get?]
      by_cases hn : n = name
      · simp [keys, hn]
      · rw [if_neg hn, ih]
        simp [keys, Ne.symm hn]

theorem get?_sortPut (other name : String) (a : α) (d : List (String × α)) :
    get? other (sortPut name a d) = if other = name then some a else get? other d := by
  induction d with
  | nil => simp [sortPut, get?, eq_comm]
  | cons entry rest ih =>
      obtain ⟨n, b⟩ := entry
      rw [sortPut]
      split
      · simp [get?, eq_comm]
      · split
        · next hn =>
            subst hn
            by_cases ho : other = name
            · simp [get?, ho]
            · simp [get?, ho, Ne.symm ho]
        · next hn =>
            rw [get?, ih, get?]
            by_cases ho : n = other
            · subst ho
              simp [Ne.symm hn]
            · simp [ho]

theorem increasing_sortPut (h : d.Pairwise fun x y => x.1 < y.1) (name : String) (a : α) :
    (sortPut name a d).Pairwise fun x y => x.1 < y.1 := by
  have mem : ∀ (d : List (String × α)) (x : String × α), x ∈ sortPut name a d →
      x = (name, a) ∨ x ∈ d := by
    intro d
    induction d with
    | nil => intro x hx; exact .inl (List.mem_singleton.mp hx)
    | cons entry rest ih =>
        obtain ⟨n, b⟩ := entry
        intro x hx
        rw [sortPut] at hx
        split at hx
        · exact List.mem_cons.mp hx
        · split at hx
          · next hn =>
              rw [← hn] at hx
              exact (List.mem_cons.mp hx).imp_right (List.mem_cons_of_mem _)
          · rcases List.mem_cons.mp hx with rfl | hx
            · exact .inr List.mem_cons_self
            · exact (ih x hx).imp_right (List.mem_cons_of_mem _)
  induction d with
  | nil => exact List.pairwise_singleton _ _
  | cons entry rest ih =>
      obtain ⟨n, b⟩ := entry
      obtain ⟨hfirst, hrest⟩ := List.pairwise_cons.mp h
      rw [sortPut]
      split
      · next hlt =>
          refine List.pairwise_cons.mpr ⟨fun x hx => ?_, h⟩
          rcases List.mem_cons.mp hx with rfl | hx
          · exact hlt
          · exact lt_trans hlt (hfirst x hx)
      · next hlt =>
          split
          · exact List.pairwise_cons.mpr ⟨hfirst, hrest⟩
          · next hne =>
              refine List.pairwise_cons.mpr ⟨fun x hx => ?_, ih hrest⟩
              rcases mem rest x hx with rfl | hx
              · exact lt_of_le_of_ne (not_lt.mp hlt) (Ne.symm hne)
              · exact hfirst x hx

/-- No name comes twice in a sorted dictionary. -/
theorem sorted_eq (entries : List (String × α)) :
    sorted entries = entries.foldl (fun d entry => sortPut entry.1 entry.2 d) [] := rfl

theorem nodup_keys_sorted (entries : List (String × α)) : (keys (sorted entries)).Nodup := by
  have h : ∀ d : List (String × α), d.Pairwise (fun x y => x.1 < y.1) →
      (entries.foldl (fun d entry => sortPut entry.1 entry.2 d) d).Pairwise fun x y =>
        x.1 < y.1 := by
    induction entries with
    | nil => exact fun _ hd => hd
    | cons entry rest ih => exact fun d hd => ih _ (increasing_sortPut hd _ _)
  rw [sorted_eq]
  refine List.Pairwise.map _ (fun x y hxy => ?_) (h [] .nil)
  exact ne_of_lt hxy

/-- Sorting entries of distinct names changes nothing for look-ups. -/
theorem get?_sorted {entries : List (String × α)} (distinct : (keys entries).Nodup)
    (name : String) : get? name (sorted entries) = get? name entries := by
  have h : ∀ d : List (String × α),
      get? name (entries.foldl (fun d entry => sortPut entry.1 entry.2 d) d) =
        (get? name entries).or (get? name d) := by
    induction entries with
    | nil => exact fun _ => rfl
    | cons entry rest ih =>
        obtain ⟨n, a⟩ := entry
        obtain ⟨hnot, hrest⟩ := List.nodup_cons.mp distinct
        intro d
        rw [List.foldl_cons, ih hrest, get?_sortPut, get?]
        by_cases hn : n = name
        · subst hn
          rw [get?_eq_none_iff.mpr hnot, if_pos rfl, if_pos rfl]
          rfl
        · rw [if_neg hn, if_neg (Ne.symm hn)]
  rw [sorted_eq, h]
  exact Option.or_none

end Dictionary

/-! ## Runs that succeed -/

section

variable {σ α : Type}

theorem Run.mapReport_eq_ok {r : Diagnostic → Diagnostic} {x : Run σ α} {s t : σ} {a : α}
    (h : Run.mapReport r x s = (.ok a, t)) : x s = (.ok a, t) := by
  rw [Run.mapReport_apply] at h
  rcases hx : x s with ⟨e | b, u⟩
  · rw [hx] at h
    cases h
  · rw [hx] at h
    cases h
    rfl

theorem Pass.within_eq_ok {table : SymbolTable} {debug : Bool} {pass : Pass α} {w w' : World}
    {a : α} {matched : List String} (h : Pass.within table debug pass w = (.ok (a, matched), w')) :
    ∃ s, pass { world := w, registry := { table } } = (.ok a, s) ∧ s.matched = matched := by
  rw [Pass.within_apply] at h
  rcases hp : pass { world := w, registry := { table } } with ⟨e | b, s⟩
  · rw [hp] at h
    cases h
  · rw [hp] at h
    cases h
    exact ⟨s, rfl, rfl⟩

end

/-- A pass of its own made the artifact of the function, in a world that binds what `w` binds. -/
def Pass.Makes (table : Substitution) (w : World) (f : Function) (a : Artifact) : Prop :=
  ∃ isolation debug s t, w.Same s ∧ Pass.substituteCompiled table debug f
    { world := s, registry := { table := .ofIsolation isolation } } = (.ok a, t)

namespace Substitution

variable {raw made table rest : Substitution} {isolation : Isolation} {debug : Bool}
  {used : List String} {w s t : World}

/-! ## Preparation -/

theorem pending?_eq_some {c : Callable} {p : Function} (h : raw.pending? c = some p) :
    c = .function p := by
  cases c with
  | function f =>
      rw [pending?] at h
      split at h
      · cases h
      · rw [Option.some.inj h]
  | artifact a => cases h
  | native n => cases h
  | gateway g => cases h
  | bound i g overrides d => cases h

theorem pending?_congr {c : Callable} (h : ∀ p, c = .function p →
    Dictionary.get? p.name table = Dictionary.get? p.name raw) :
    table.pending? c = raw.pending? c := by
  cases c with
  | function p => rw [pending?, pending?, Dictionary.contains, h p rfl, Dictionary.contains]
  | _ => rfl

/-- What the finished replacement `r` for the replacement `c` is. -/
inductive Prepared (raw : Substitution) (w : World) (c r : Callable) : Prop
  | made {p a} : raw.pending? c = some p → Pass.Makes raw w p a → r = .artifact a →
      Prepared raw w c r
  | converted {u v : World} : raw.pending? c = none → w.Same u → c.convert u = (.ok r, v) →
      Prepared raw w c r

theorem prepareReplacements_eq_ok (hs : w.Same s)
    (h : raw.prepareReplacements isolation debug rest s = (.ok (made, used), t)) :
    (∀ n r, (n, r) ∈ made → ∃ c p a, (n, c) ∈ rest ∧ raw.pending? c = some p ∧
      Pass.Makes raw w p a ∧ r = .artifact a) ∧
    ∀ n c p, (n, c) ∈ rest → raw.pending? c = some p → (Dictionary.get? n made).isSome := by
  induction rest generalizing s made used with
  | nil =>
      cases h
      exact ⟨fun n r hr => absurd hr List.not_mem_nil, fun n c p hc => absurd hc List.not_mem_nil⟩
  | cons entry rest ih =>
      obtain ⟨name, c⟩ := entry
      rw [prepareReplacements] at h
      cases hp : raw.pending? c with
      | none =>
          rw [hp] at h
          obtain ⟨hmade, hall⟩ := ih hs h
          refine ⟨fun n r hr => ?_, fun n c' p hc hp' => ?_⟩
          · obtain ⟨c', p, a, hc, hrest⟩ := hmade n r hr
            exact ⟨c', p, a, List.mem_cons_of_mem _ hc, hrest⟩
          · rcases List.mem_cons.mp hc with hc | hc
            · obtain ⟨rfl, rfl⟩ := Prod.mk.inj hc
              rw [hp] at hp'
              cases hp'
            · exact hall n c' p hc hp'
      | some p =>
          rw [hp] at h
          dsimp only at h
          obtain ⟨⟨a, matched⟩, s₁, ha, h⟩ := Run.bind_eq_ok h
          obtain ⟨⟨others, more⟩, t₁, hothers, h⟩ := Run.bind_eq_ok h
          cases h
          obtain ⟨u, hu, -⟩ := Pass.within_eq_ok (Run.mapReport_eq_ok ha)
          have hmakes : Pass.Makes raw w p a := ⟨isolation, debug, s, u, hs, hu⟩
          -- the pass leaves the namespaces as they were, so the rest is prepared in the same world
          have htransparent := Pass.transparent_within
            (fun w => Pass.undoable_substituteCompiled (w := w) raw debug p) isolation debug
          have hs₁ : w.Same s₁ := hs.trans (htransparent.same_of_eq (Run.mapReport_eq_ok ha))
          obtain ⟨hmade, hall⟩ := ih hs₁ hothers
          refine ⟨fun n r hr => ?_, fun n c' p' hc hp' => ?_⟩
          · rcases List.mem_cons.mp hr with hr | hr
            · obtain ⟨rfl, rfl⟩ := Prod.mk.inj hr
              exact ⟨c, p, a, List.mem_cons_self, hp, hmakes, rfl⟩
            · obtain ⟨c', p', a', hc, hrest⟩ := hmade n r hr
              exact ⟨c', p', a', List.mem_cons_of_mem _ hc, hrest⟩
          · rw [Dictionary.get?]
            split
            · rfl
            · next hne =>
                rcases List.mem_cons.mp hc with hc | hc
                · exact absurd (Prod.mk.inj hc).1.symm hne
                · exact hall n c' p' hc hp'

theorem convertOthers_cons (made : Substitution) (name : String) (c : Callable)
    (rest : Substitution) :
    convertOthers made ((name, c) :: rest) =
      ((match Dictionary.get? name made with
        | some r => pure r
        | none => Run.mapReport (fun d => d.withNote ("given as override `" ++ name ++ "`"))
            c.convert) >>= fun r => do return (name, r) :: (← convertOthers made rest) :
        Act Substitution) := by
  rw [convertOthers]
  cases Dictionary.get? name made <;> rfl

theorem convertOthers_eq_ok (hs : w.Same s)
    (h : convertOthers made rest s = (.ok table, t)) :
    Dictionary.keys table = Dictionary.keys rest ∧
      ∀ n r, (n, r) ∈ table → ∃ c, (n, c) ∈ rest ∧
        (Dictionary.get? n made = some r ∨ Dictionary.get? n made = none ∧
          ∃ u v, w.Same u ∧ c.convert u = (.ok r, v)) := by
  induction rest generalizing s table with
  | nil =>
      cases h
      exact ⟨rfl, fun n r hr => absurd hr List.not_mem_nil⟩
  | cons entry rest ih =>
      obtain ⟨name, c⟩ := entry
      rw [convertOthers_cons] at h
      obtain ⟨r, s₁, hr, h⟩ := Run.bind_eq_ok h
      obtain ⟨others, t₁, hothers, h⟩ := Run.bind_eq_ok h
      cases h
      obtain ⟨hs₁, hr⟩ : w.Same s₁ ∧ (Dictionary.get? name made = some r ∨
          Dictionary.get? name made = none ∧ ∃ u v, w.Same u ∧ c.convert u = (.ok r, v)) := by
        cases hm : Dictionary.get? name made with
        | some r' =>
            rw [hm] at hr
            cases hr
            exact ⟨hs, .inl rfl⟩
        | none =>
            rw [hm] at hr
            have hr := Run.mapReport_eq_ok hr
            exact ⟨hs.trans (c.transparent_convert.same_of_eq hr), .inr ⟨rfl, s, s₁, hs, hr⟩⟩
      obtain ⟨hkeys, hall⟩ := ih hs₁ hothers
      refine ⟨congrArg (name :: ·) hkeys, fun n r' hr' => ?_⟩
      rcases List.mem_cons.mp hr' with hr' | hr'
      · obtain ⟨rfl, rfl⟩ := Prod.mk.inj hr'
        exact ⟨c, List.mem_cons_self, hr⟩
      · obtain ⟨c', hc', hrest⟩ := hall n r' hr'
        exact ⟨c', List.mem_cons_of_mem _ hc', hrest⟩

/-- Preparing gives a finished replacement for each replacement. -/
theorem prepare_eq_ok (distinct : (Dictionary.keys raw).Nodup)
    (h : raw.prepare isolation debug w = (.ok (table, used), t)) :
    w.Same t ∧ Dictionary.keys table = Dictionary.keys raw ∧
      ∀ n r, Dictionary.get? n table = some r →
        ∃ c, Dictionary.get? n raw = some c ∧ Prepared raw w c r := by
  refine ⟨(transparent_prepare raw).same_of_eq h, ?_⟩
  obtain ⟨⟨made, matched⟩, s, hmade, h⟩ := Run.bind_eq_ok h
  obtain ⟨converted, t₁, hconverted, h⟩ := Run.bind_eq_ok h
  cases h
  have hs : w.Same s := (transparent_prepareReplacements raw raw).same_of_eq hmade
  obtain ⟨hfrom, hall⟩ := prepareReplacements_eq_ok (.refl w) hmade
  obtain ⟨hkeys, htable⟩ := convertOthers_eq_ok hs hconverted
  refine ⟨hkeys, fun n r hr => ?_⟩
  obtain ⟨c, hc, hr⟩ := htable n r (Dictionary.mem_of_get? hr)
  refine ⟨c, Dictionary.get?_of_mem distinct hc, ?_⟩
  rcases hr with hr | ⟨hnone, u, v, hu, hconvert⟩
  · obtain ⟨c', p, a, hc', hp, hmakes, rfl⟩ := hfrom n r (Dictionary.mem_of_get? hr)
    have hsame : c' = c := by
      have hget := Dictionary.get?_of_mem distinct hc
      rw [Dictionary.get?_of_mem distinct hc'] at hget
      exact Option.some.inj hget
    rw [hsame] at hp
    exact .made hp hmakes rfl
  · refine .converted ?_ hu hconvert
    cases hp : raw.pending? c with
    | none => rfl
    | some p =>
        have hsome := hall n c p hc hp
        rw [hnone] at hsome
        cases hsome

end Substitution

/-- A new specialization is what a pass over the function makes with the finished replacements. -/
theorem Function.specializeAnew_eq_ok {f : Function} {overrides : List (String × Callable)}
    {debug : Bool} {a : Artifact} {w w' : World}
    (h : f.specializeAnew overrides debug w = (.ok a, w')) :
    ∃ table : Substitution,
      Dictionary.keys table = Dictionary.keys (Dictionary.sorted overrides) ∧
      (∀ n r, Dictionary.get? n table = some r →
        ∃ c, Dictionary.get? n (Dictionary.sorted overrides) = some c ∧
          Substitution.Prepared (Dictionary.sorted overrides) w c r) ∧
      Pass.Makes table w f a := by
  obtain ⟨w₁, s, hget, h⟩ := Run.bind_eq_ok h
  cases hget
  obtain ⟨⟨table, used⟩, t, htable, h⟩ := Run.bind_eq_ok h
  obtain ⟨⟨a', matched⟩, u, hpass, h⟩ := Run.bind_eq_ok h
  cases h
  obtain ⟨hsame, hkeys, hprepared⟩ :=
    Substitution.prepare_eq_ok (Dictionary.nodup_keys_sorted overrides) htable
  obtain ⟨s₁, hs₁, -⟩ := Pass.within_eq_ok hpass
  obtain ⟨b, s₂, hb, hs₁⟩ := Run.bind_eq_ok hs₁
  obtain ⟨s₃, s₄, hget, hs₁⟩ := Run.bind_eq_ok hs₁
  obtain ⟨_, s₅, -, hs₁⟩ := Run.bind_eq_ok hs₁
  cases hs₁
  exact ⟨table, hkeys, hprepared, _, _, t, s₂, hsame, hb⟩

end Graft
