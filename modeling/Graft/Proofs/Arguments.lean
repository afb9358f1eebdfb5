import Graft.Proofs.Requests
import Graft.Proofs.Staleness
import Mathlib.Data.Set.List

/-!
# Arguments by position and by name

The parameters that are not given by position have to be given by name, each once and nothing else.
In which order keyword arguments come makes no difference to a call, except for what a report says.
-/

namespace Graft

namespace Function

variable {f : Function} {slots slots' : List (Option Value)} {args vs : List Value}
  {named named' : List (String × Value)}

/-! ## Slots -/

/-- The slots with what is given by name put in. -/
def place (f : Function) (slots : List (Option Value)) (named : List (String × Value)) :
    List (Option Value) :=
  named.foldl (fun slots entry => slots.set (f.params.idxOf entry.1) (some entry.2)) slots

theorem fill_eq_ok {name : String} {v : Value} :
    f.fill slots name v = .ok slots' ↔
      slots[f.params.idxOf name]?.join = none ∧
        slots' = slots.set (f.params.idxOf name) (some v) := by
  rw [fill]
  cases h : slots[f.params.idxOf name]? with
  | none =>
      rw [List.set_eq_of_length_le (List.getElem?_eq_none_iff.mp h)]
      simp [eq_comm]
  | some slot =>
      cases slot with
      | none => simp [eq_comm]
      | some u => simp

theorem idxOf_ne {params : List String} {m n : String} (hm : m ∈ params) (hne : m ≠ n) :
    params.idxOf m ≠ params.idxOf n := fun h => hne (List.idxOf_inj hm |>.mp h)

/-- Parameters can be given by name if their slots are free. -/
theorem fillAll_eq_ok (distinct : (Dictionary.keys named).Nodup)
    (known : ∀ n ∈ Dictionary.keys named, n ∈ f.params) :
    f.fillAll slots named = .ok slots' ↔
      (∀ n ∈ Dictionary.keys named, slots[f.params.idxOf n]?.join = none) ∧
        slots' = f.place slots named := by
  induction named generalizing slots with
  | nil => simp [fillAll, place, Dictionary.keys, eq_comm]
  | cons entry rest ih =>
      obtain ⟨name, v⟩ := entry
      obtain ⟨hnew, distinct⟩ := List.nodup_cons.mp distinct
      obtain ⟨hname, known⟩ := List.forall_mem_cons.mp known
      -- what is given later goes to other slots
      have hother : ∀ n ∈ Dictionary.keys rest,
          (slots.set (f.params.idxOf name) (some v))[f.params.idxOf n]? =
            slots[f.params.idxOf n]? := fun n hn =>
        List.getElem?_set_ne (idxOf_ne hname fun he => hnew (he ▸ hn))
      have hrest : (∀ n ∈ Dictionary.keys rest,
          (slots.set (f.params.idxOf name) (some v))[f.params.idxOf n]?.join = none) ↔
            ∀ n ∈ Dictionary.keys rest, slots[f.params.idxOf n]?.join = none :=
        forall₂_congr fun n hn => by rw [hother n hn]
      have hplace : f.place slots ((name, v) :: rest) =
          f.place (slots.set (f.params.idxOf name) (some v)) rest := rfl
      have hkeys : Dictionary.keys ((name, v) :: rest) = name :: Dictionary.keys rest := rfl
      rw [hplace, hkeys, List.forall_mem_cons, fillAll, and_assoc]
      cases hfill : f.fill slots name v with
      | error d =>
          have hfull : ¬ slots[f.params.idxOf name]?.join = none := fun h => by
            rw [fill_eq_ok.mpr ⟨h, rfl⟩] at hfill
            cases hfill
          exact ⟨by rintro ⟨⟩, fun h => absurd h.1 hfull⟩
      | ok filled =>
          obtain ⟨hfree, rfl⟩ := fill_eq_ok.mp hfill
          rw [and_iff_right hfree, ← hrest]
          exact ih distinct known

theorem collect_eq_ok {names : List String} (h : slots.length = names.length) :
    f.collect slots names = .ok vs ↔ slots = vs.map some := by
  induction slots generalizing names vs with
  | nil => cases names <;> cases vs <;> simp [collect]
  | cons slot slots ih =>
      cases names with
      | nil => cases h
      | cons name names =>
          have hlength : slots.length = names.length := Nat.succ.inj h
          cases slot with
          | none => cases vs <;> simp [collect]
          | some v =>
              rw [collect]
              cases hrest : f.collect slots names with
              | error d =>
                  refine ⟨by rintro ⟨⟩, fun h => ?_⟩
                  cases vs with
                  | nil => cases h
                  | cons u us =>
                      obtain ⟨-, h⟩ := List.cons.inj h
                      rw [(ih hlength).mpr h] at hrest
                      cases hrest
              | ok us =>
                  obtain rfl := (ih hlength).mp hrest
                  show Except.ok (v :: us) = .ok vs ↔ (v :: us).map some = vs.map some
                  have hsome := List.map_injective_iff.mpr (Option.some_injective Value)
                  rw [Except.ok.injEq, hsome.eq_iff]

/-! ## Arguments -/

/-- The slots of the parameters, with what is given by position put in. -/
def byPosition (f : Function) (args : List Value) : List (Option Value) :=
  args.map some ++ List.replicate (f.arity - args.length) none

theorem length_byPosition (h : args.length ≤ f.arity) :
    (f.byPosition args).length = f.params.length := by
  simp [byPosition, params, arity] at h ⊢
  omega

/-- What is given by position is in the slots. -/
theorem join_getElem?_byPosition (i : Nat) : (f.byPosition args)[i]?.join = args[i]? := by
  rw [byPosition, List.getElem?_append, List.length_map]
  split
  · rw [List.getElem?_map]
    cases args[i]? <;> rfl
  · next h =>
      rw [List.getElem?_eq_none (Nat.not_lt.mp h), List.getElem?_replicate]
      split <;> rfl

theorem length_place : (f.place slots named).length = slots.length := by
  induction named generalizing slots with
  | nil => rfl
  | cons entry rest ih => exact ih.trans (List.length_set ..)

/-- Arguments can be put in order if there are not too many of them, and those given by name go to
free slots and fill them all. -/
theorem arguments_eq_ok (distinct : (Dictionary.keys named).Nodup)
    (known : ∀ n ∈ Dictionary.keys named, n ∈ f.params) :
    f.arguments args named = .ok vs ↔ args.length ≤ f.arity ∧
      (∀ n ∈ Dictionary.keys named, (f.byPosition args)[f.params.idxOf n]?.join = none) ∧
        f.place (f.byPosition args) named = vs.map some := by
  rw [arguments]
  split
  · next h =>
      simp only [Bool.and_eq_true, List.isEmpty_iff, beq_iff_eq] at h
      obtain ⟨rfl, hlength⟩ := h
      have hall : f.byPosition args = args.map some := by simp [byPosition, hlength]
      simp [hlength, hall, place, Dictionary.keys,
        (List.map_injective_iff.mpr (Option.some_injective Value)).eq_iff]
  · split
    · next h => simp [Nat.not_le.mpr h]
    · next h =>
        have hle := Nat.not_lt.mp h
        rw [and_iff_right hle]
        change (f.fillAll (f.byPosition args) named >>= fun slots =>
          f.collect slots f.params) = _ ↔ _
        have hfill := @fillAll_eq_ok f (f.byPosition args) (f.place (f.byPosition args) named)
          named distinct known
        cases hfilled : f.fillAll (f.byPosition args) named with
        | error d =>
            refine ⟨by rintro ⟨⟩, fun h => ?_⟩
            rw [hfill.mpr ⟨h.1, rfl⟩] at hfilled
            cases hfilled
        | ok filled =>
            obtain ⟨hfree, rfl⟩ := (fillAll_eq_ok distinct known).mp hfilled
            have hcollect := @collect_eq_ok f (f.place (f.byPosition args) named) vs f.params
              (length_place.trans (length_byPosition hle))
            exact ⟨fun h => ⟨hfree, hcollect.mp h⟩, fun h => hcollect.mpr h.2⟩

/-- The order of arguments given by name makes no difference. -/
theorem arguments_perm (distinct : (Dictionary.keys named).Nodup)
    (known : ∀ n ∈ Dictionary.keys named, n ∈ f.params) (h : named.Perm named') :
    (f.arguments args named).toOption = (f.arguments args named').toOption := by
  have hkeys : (Dictionary.keys named).Perm (Dictionary.keys named') := h.map Prod.fst
  -- values that are given to different parameters go to different slots
  have hplace : f.place (f.byPosition args) named = f.place (f.byPosition args) named' := by
    refine h.foldl_eq' (fun x hx y hy slots => ?_) _
    by_cases hxy : x.1 = y.1
    · rw [List.inj_on_of_nodup_map distinct hx hy hxy]
    · exact List.set_comm _ _ (idxOf_ne (known _ (List.mem_map_of_mem hx)) hxy)
  have hok (vs : List Value) :
      f.arguments args named = .ok vs ↔ f.arguments args named' = .ok vs := by
    rw [arguments_eq_ok distinct known, arguments_eq_ok (hkeys.nodup_iff.mp distinct)
      fun n hn => known n (hkeys.mem_iff.mpr hn), hplace]
    exact and_congr_right fun _ => and_congr_left fun _ => by simp only [hkeys.mem_iff]
  cases hleft : f.arguments args named with
  | ok vs => rw [(hok vs).mp hleft]
  | error d =>
      cases hright : f.arguments args named' with
      | ok vs =>
          rw [(hok vs).mpr hright] at hleft
          cases hleft
      | error d' => rfl

section

variable (single : f.params.Nodup)

include single

theorem idxOf_of_getElem? {i : Nat} {n : String} (hn : f.params[i]? = some n) :
    f.params.idxOf n = i := by
  obtain ⟨hi, rfl⟩ := List.getElem?_eq_some_iff.mp hn
  exact single.idxOf_getElem i hi

theorem mem_drop_params {n : String} (hn : n ∈ f.params) (k : Nat) :
    n ∈ f.params.drop k ↔ k ≤ f.params.idxOf n := by
  rw [List.mem_iff_getElem?]
  constructor
  · rintro ⟨i, hi⟩
    rw [List.getElem?_drop] at hi
    rw [idxOf_of_getElem? single hi]
    exact Nat.le_add_right k i
  · intro hk
    refine ⟨f.params.idxOf n - k, ?_⟩
    rw [List.getElem?_drop, Nat.add_sub_cancel' hk]
    exact List.getElem?_idxOf hn

/-- A slot holds what is given for its parameter by name, if anything is. -/
theorem getElem?_place (distinct : (Dictionary.keys named).Nodup)
    (hslots : slots.length = f.params.length) {i : Nat} {n : String} (hn : f.params[i]? = some n) :
    (f.place slots named)[i]? =
      match Dictionary.get? n named with
      | some v => some (some v)
      | none => slots[i]? := by
  induction named generalizing slots with
  | nil => rfl
  | cons entry rest ih =>
      obtain ⟨m, v⟩ := entry
      obtain ⟨hnew, distinct⟩ := List.nodup_cons.mp distinct
      have hset : (slots.set (f.params.idxOf m) (some v)).length = f.params.length :=
        (List.length_set ..).trans hslots
      have hrest := ih distinct hset
      refine hrest.trans ?_
      rw [Dictionary.get?]
      by_cases hm : m = n
      · subst hm
        rw [if_pos rfl, Dictionary.get?_eq_none_iff.mpr hnew, idxOf_of_getElem? single hn]
        have hi := (List.getElem?_eq_some_iff.mp hn).1
        exact List.getElem?_set_self (hslots ▸ hi)
      · rw [if_neg hm, List.getElem?_set_ne]
        intro hi
        have hmem := List.mem_of_getElem? hn
        exact idxOf_ne hmem (Ne.symm hm) ((idxOf_of_getElem? single hn).trans hi.symm)

/-- After that, a slot holds what was given for its parameter by name, or else by position. -/
theorem join_getElem?_place (distinct : (Dictionary.keys named).Nodup)
    (hle : args.length ≤ f.arity) {i : Nat} {n : String} (hn : f.params[i]? = some n) :
    (f.place (f.byPosition args) named)[i]?.join = (Dictionary.get? n named).or args[i]? := by
  rw [getElem?_place single distinct (length_byPosition hle) hn]
  cases Dictionary.get? n named with
  | some v => rfl
  | none => exact join_getElem?_byPosition i

/-- Arguments can be put in order exactly if those given by name are the parameters after those
given by position. Then each parameter has the value that was given for it. -/
theorem arguments_exact (distinct : (Dictionary.keys named).Nodup)
    (known : ∀ n ∈ Dictionary.keys named, n ∈ f.params) :
    ((∃ vs, f.arguments args named = .ok vs) ↔ args.length ≤ f.arity ∧
      ∀ n, n ∈ Dictionary.keys named ↔ n ∈ f.params.drop args.length) ∧
    ∀ vs, f.arguments args named = .ok vs → ∀ i, vs[i]? =
      if i < args.length then args[i]?
      else f.params[i]?.bind fun n => Dictionary.get? n named := by
  -- the slot of a name is free if its parameter comes after those given by position
  have hfree {n : String} (hn : n ∈ Dictionary.keys named) :
      (f.byPosition args)[f.params.idxOf n]?.join = none ↔ n ∈ f.params.drop args.length := by
    rw [join_getElem?_byPosition, List.getElem?_eq_none_iff, mem_drop_params single (known n hn)]
  have hvalues (vs : List Value) (h : f.arguments args named = .ok vs) (i : Nat) : vs[i]? =
      if i < args.length then args[i]? else f.params[i]?.bind fun n => Dictionary.get? n named := by
    obtain ⟨hle, hslots, hplace⟩ := (arguments_eq_ok distinct known).mp h
    have hvs : vs[i]? = (f.place (f.byPosition args) named)[i]?.join := by
      rw [hplace, List.getElem?_map]
      cases vs[i]? <;> rfl
    cases hn : f.params[i]? with
    | none =>
        have hi := List.getElem?_eq_none_iff.mp hn
        have hargs : ¬ i < args.length := by
          rw [← length_byPosition hle] at hi
          simp [byPosition] at hi
          omega
        rw [if_neg hargs, hvs, List.getElem?_eq_none]
        · rfl
        · rw [length_place, length_byPosition hle]
          exact hi
    | some n =>
        rw [hvs, join_getElem?_place single distinct hle hn]
        by_cases hi : i < args.length
        · -- what is given by position is not given by name
          have hnone : Dictionary.get? n named = none := by
            refine Dictionary.get?_eq_none_iff.mpr fun hmem => ?_
            have hslot := hslots n hmem
            rw [idxOf_of_getElem? single hn, join_getElem?_byPosition,
              List.getElem?_eq_none_iff] at hslot
            exact absurd hi (Nat.not_lt.mpr hslot)
          rw [hnone, if_pos hi]
          rfl
        · rw [if_neg hi, List.getElem?_eq_none (Nat.not_lt.mp hi), Option.or_none]
          rfl
  refine ⟨⟨?_, ?_⟩, hvalues⟩
  · rintro ⟨vs, h⟩
    obtain ⟨hle, hslots, hplace⟩ := (arguments_eq_ok distinct known).mp h
    refine ⟨hle, fun n => ⟨fun hn => (hfree hn).mp (hslots n hn), fun hn => ?_⟩⟩
    have hmem := List.mem_of_mem_drop hn
    have hi := (mem_drop_params single hmem _).mp hn
    have hvalue := hvalues vs h (f.params.idxOf n)
    rw [if_neg (Nat.not_lt.mpr hi), List.getElem?_idxOf hmem, Option.bind_some] at hvalue
    by_contra hnone
    rw [Dictionary.get?_eq_none_iff.mpr hnone, List.getElem?_eq_none_iff] at hvalue
    have hlength := congrArg List.length hplace
    rw [length_place, length_byPosition hle, List.length_map] at hlength
    exact absurd (List.idxOf_lt_length_of_mem hmem) (Nat.not_lt.mpr (hlength ▸ hvalue))
  · rintro ⟨hle, hnamed⟩
    -- every parameter is given in one way or the other
    have hfull : ∀ slot ∈ f.place (f.byPosition args) named, slot.isSome := by
      intro slot hslot
      obtain ⟨i, hlt, rfl⟩ := List.mem_iff_getElem.mp hslot
      have hi : i < f.params.length := by rwa [length_place, length_byPosition hle] at hlt
      have hn := List.getElem?_eq_getElem hi
      have hjoin := join_getElem?_place single distinct hle hn
      rw [List.getElem?_eq_getElem hlt, Option.join_some] at hjoin
      rw [hjoin, Option.isSome_or, Bool.or_eq_true]
      by_cases hargs : i < args.length
      · exact .inr (by rw [List.getElem?_eq_getElem hargs]; rfl)
      · refine .inl (Option.isSome_iff_ne_none.mpr fun hnone => ?_)
        refine Dictionary.get?_eq_none_iff.mp hnone ((hnamed _).mpr ?_)
        rw [mem_drop_params single (List.getElem_mem hi), idxOf_of_getElem? single hn]
        exact Nat.not_lt.mp hargs
    obtain ⟨vs, hvs⟩ : f.place (f.byPosition args) named ∈ Set.range (List.map some) := by
      rw [Set.range_list_map]
      exact fun slot hslot => (Option.isSome_iff_exists.mp (hfull slot hslot)).imp fun _ => Eq.symm
    exact ⟨vs, (arguments_eq_ok distinct known).mpr
      ⟨hle, fun n hn => (hfree hn).mpr ((hnamed n).mp hn), hvs.symm⟩⟩

end

end Function

/-! ## Keyword arguments -/

theorem Control.ofName?_eq_some {name : String} {c : Control} (h : Control.ofName? name = some c) :
    c.text = name := by
  have htext := List.find?_some h
  exact of_decide_eq_true htext

/-- The keyword argument can be one of that name in a call of `f`. -/
def KeywordArgument.Fits (f : Function) (name : String) : KeywordArgument → Prop
  | .flag _ => (Control.ofName? name).isSome
  | .value _ => name ∈ f.params
  | .override _ => Control.ofName? name = none

namespace Keywords

/-- The parameters that are given by name. -/
def values (ks : Keywords) : List (String × Value) :=
  ks.filterMap fun
    | (name, .value v) => some (name, v)
    | _ => none

def overrides (ks : Keywords) : List (String × Callable) :=
  ks.filterMap fun
    | (name, .override c) => some (name, c)
    | _ => none

/-- Whether a flag is set, if it was set or not before. -/
def flag (c : Control) (before : Bool) (ks : Keywords) : Bool :=
  ks.foldl (fun on entry =>
    match entry.2 with
    | .flag on' => if Control.ofName? entry.1 = some c then on' else on
    | _ => on) before

theorem keys_filterMap {α : Type} {g : String × KeywordArgument → Option (String × α)}
    (hg : ∀ entry, ∀ a ∈ g entry, a.1 = entry.1) (ks : Keywords) :
    (Dictionary.keys (ks.filterMap g)).Sublist (Dictionary.keys ks) := by
  induction ks with
  | nil => exact .slnil
  | cons entry rest ih =>
      rw [List.filterMap_cons]
      cases h : g entry with
      | none => exact ih.cons entry.1
      | some a =>
          have hname := hg entry a h
          change (a.1 :: Dictionary.keys (rest.filterMap g)).Sublist
            (entry.1 :: Dictionary.keys rest)
          rw [hname]
          exact ih.cons_cons entry.1

theorem keys_values (ks : Keywords) :
    (Dictionary.keys ks.values).Sublist (Dictionary.keys ks) := by
  refine keys_filterMap (fun entry a ha => ?_) ks
  obtain ⟨name, k⟩ := entry
  cases k <;> cases ha
  rfl

theorem mem_values {ks : Keywords} {name : String} {v : Value} (h : (name, v) ∈ ks.values) :
    (name, .value v) ∈ ks := by
  obtain ⟨⟨n, k⟩, hentry, hv⟩ := List.mem_filterMap.mp h
  cases k <;> cases hv
  exact hentry

/-- A flag is set by one entry at most, so it does not matter when. -/
theorem flag_perm {ks ks' : Keywords} (distinct : (Dictionary.keys ks).Nodup) (h : ks.Perm ks')
    (c : Control) (before : Bool) : ks.flag c before = ks'.flag c before := by
  refine h.foldl_eq' (fun x hx y hy on => ?_) before
  by_cases hxy : x.1 = y.1
  · rw [List.inj_on_of_nodup_map distinct hx hy hxy]
  · have hone : Control.ofName? x.1 = some c → Control.ofName? y.1 ≠ some c := fun hx hy =>
      hxy ((Control.ofName?_eq_some hx).symm.trans (Control.ofName?_eq_some hy))
    obtain ⟨m, k⟩ := x
    obtain ⟨n, l⟩ := y
    dsimp only at hone ⊢
    cases k <;> cases l <;> try rfl
    dsimp only
    by_cases hm : Control.ofName? m = some c
    · rw [if_pos hm, if_neg (hone hm), if_pos hm]
    · rw [if_neg hm, if_neg hm]

end Keywords

namespace Request

variable {f : Function} {r q : Request} {ks ks' : Keywords}

/-- The request with one more keyword argument, which has to fit. -/
def take (r : Request) (name : String) : KeywordArgument → Request
  | .flag on => (Control.ofName? name).elim r (r.setFlag on)
  | .value v => { r with values := r.values ++ [(name, v)] }
  | .override c => { r with overrides := r.overrides ++ [(name, c)] }

theorem add_eq_ok {name : String} {k : KeywordArgument} :
    r.add f name k = .ok q ↔ k.Fits f name ∧ q = r.take name k := by
  cases k with
  | flag on =>
      rw [add, KeywordArgument.Fits, take]
      cases Control.ofName? name <;> simp [eq_comm]
  | value v =>
      rw [add, KeywordArgument.Fits, take]
      split
      · next h => simp [List.contains_iff_mem.mp h, eq_comm]
      · next h => simpa using fun hmem => absurd (List.contains_iff_mem.mpr hmem) h
  | override c =>
      rw [add, KeywordArgument.Fits, take]
      cases Control.ofName? name <;> simp [eq_comm]

/-- The request with keyword arguments that fit. -/
def takeAll (r : Request) (ks : Keywords) : Request :=
  ks.foldl (fun r entry => r.take entry.1 entry.2) r

/-- Keyword arguments are taken in if their names are distinct and each of them fits. -/
theorem addAll_eq_ok {seen : List String} :
    addAll f seen r ks = .ok q ↔
      ((Dictionary.keys ks).Nodup ∧ ∀ n ∈ Dictionary.keys ks, n ∉ seen) ∧
        (∀ entry ∈ ks, entry.2.Fits f entry.1) ∧ q = r.takeAll ks := by
  induction ks generalizing seen r with
  | nil => simp [addAll, takeAll, Dictionary.keys, eq_comm]
  | cons entry rest ih =>
      obtain ⟨name, k⟩ := entry
      have hkeys : Dictionary.keys ((name, k) :: rest) = name :: Dictionary.keys rest := rfl
      have htake : r.takeAll ((name, k) :: rest) = (r.take name k).takeAll rest := rfl
      rw [addAll, hkeys, htake, List.nodup_cons, List.forall_mem_cons, List.forall_mem_cons]
      by_cases hseen : name ∈ seen
      · simp [hseen]
      · rw [if_neg (by simpa using hseen)]
        cases hadd : r.add f name k with
        | error p =>
            have hunfit : ¬ k.Fits f name := fun h => by
              rw [add_eq_ok.mpr ⟨h, rfl⟩] at hadd
              cases hadd
            simp [hunfit]
        | ok r' =>
            obtain ⟨hfits, rfl⟩ := add_eq_ok.mp hadd
            dsimp only
            rw [ih]
            simp only [List.mem_cons, not_or, hfits, hseen, true_and, not_false_eq_true]
            constructor
            · rintro ⟨⟨hnodup, hnew⟩, hrest⟩
              exact ⟨⟨⟨fun h => (hnew name h).1 rfl, hnodup⟩, fun n hn => (hnew n hn).2⟩, hrest⟩
            · rintro ⟨⟨⟨hname, hnodup⟩, hnew⟩, hrest⟩
              exact ⟨⟨hnodup, fun n hn => ⟨fun he => hname (he ▸ hn), hnew n hn⟩⟩, hrest⟩

theorem ofKeywords_eq_ok :
    ofKeywords f ks = .ok q ↔
      (Dictionary.keys ks).Nodup ∧ (∀ entry ∈ ks, entry.2.Fits f entry.1) ∧
        q = takeAll {} ks := by
  have h := @addAll_eq_ok f {} q ks []
  simp only [List.not_mem_nil, not_false_eq_true, implies_true, and_true] at h
  rw [← h, ofKeywords]
  cases addAll f [] {} ks <;> simp

theorem values_takeAll : (r.takeAll ks).values = r.values ++ ks.values := by
  induction ks generalizing r with
  | nil => simp [takeAll, Keywords.values]
  | cons entry rest ih =>
      obtain ⟨name, k⟩ := entry
      refine (ih (r := r.take name k)).trans ?_
      cases k with
      | flag on =>
          rw [take]
          cases Control.ofName? name with
          | none => rfl
          | some c => cases c <;> rfl
      | value v => exact List.append_assoc ..
      | override c => rfl

theorem overrides_takeAll : (r.takeAll ks).overrides = r.overrides ++ ks.overrides := by
  induction ks generalizing r with
  | nil => simp [takeAll, Keywords.overrides]
  | cons entry rest ih =>
      obtain ⟨name, k⟩ := entry
      refine (ih (r := r.take name k)).trans ?_
      cases k with
      | flag on =>
          rw [take]
          cases Control.ofName? name with
          | none => rfl
          | some c => cases c <;> rfl
      | value v => rfl
      | override c => exact List.append_assoc ..

def isSet (r : Request) : Control → Bool
  | .returnCallable => r.returnCallable
  | .debug => r.debug

theorem isSet_takeAll (c : Control) : (r.takeAll ks).isSet c = ks.flag c (r.isSet c) := by
  induction ks generalizing r with
  | nil => rfl
  | cons entry rest ih =>
      obtain ⟨name, k⟩ := entry
      refine (ih (r := r.take name k)).trans ?_
      rw [Keywords.flag, Keywords.flag, List.foldl_cons]
      congr 1
      cases k with
      | flag on =>
          rw [take]
          cases Control.ofName? name with
          | none => rfl
          | some c' => cases c <;> cases c' <;> rfl
      | value v => cases c <;> rfl
      | override d => cases c <;> rfl

/-- The requests are the same but for the order of what is given. -/
structure Reordered (r r' : Request) : Prop where
  returnCallable : r.returnCallable = r'.returnCallable
  debug : r.debug = r'.debug
  values : r.values.Perm r'.values
  overrides : r.overrides.Perm r'.overrides

/-- Keyword arguments in another order are sorted into the same request, but for the order of what
is given. -/
theorem reordered_takeAll (distinct : (Dictionary.keys ks).Nodup) (h : ks.Perm ks') (r : Request) :
    (r.takeAll ks).Reordered (r.takeAll ks') := by
  have hset (c : Control) : (r.takeAll ks).isSet c = (r.takeAll ks').isSet c := by
    rw [isSet_takeAll, isSet_takeAll, Keywords.flag_perm distinct h]
  refine ⟨hset .returnCallable, hset .debug, ?_, ?_⟩
  · rw [values_takeAll, values_takeAll]
    exact (h.filterMap _).append_left _
  · rw [overrides_takeAll, overrides_takeAll]
    exact (h.filterMap _).append_left _

theorem ofKeywords_perm (h : ks.Perm ks') (hq : ofKeywords f ks = .ok q) :
    ∃ q', ofKeywords f ks' = .ok q' ∧ q.Reordered q' := by
  obtain ⟨distinct, hfits, rfl⟩ := ofKeywords_eq_ok.mp hq
  refine ⟨takeAll {} ks', ofKeywords_eq_ok.mpr ⟨(h.map Prod.fst).nodup_iff.mp distinct,
    fun entry hentry => hfits entry (h.mem_iff.mpr hentry), rfl⟩, reordered_takeAll distinct h {}⟩

/-- What is given by name are distinct parameters. -/
theorem values_ofKeywords (hq : ofKeywords f ks = .ok q) :
    (Dictionary.keys q.values).Nodup ∧ ∀ n ∈ Dictionary.keys q.values, n ∈ f.params := by
  obtain ⟨distinct, hfits, rfl⟩ := ofKeywords_eq_ok.mp hq
  rw [values_takeAll, List.nil_append]
  refine ⟨distinct.sublist ks.keys_values, fun n hn => ?_⟩
  obtain ⟨⟨_, v⟩, hentry, rfl⟩ := List.mem_map.mp hn
  exact hfits _ (Keywords.mem_values hentry)

end Request

/-! ## Specializations -/

section

variable {w : World} {f : Function}

namespace CallGraph

variable {excluded excluded' : List String}

/-- A call graph depends on which names are excluded only. -/
theorem build_congr (h : ∀ n, n ∈ excluded ↔ n ∈ excluded') :
    build w f excluded = build w f excluded' := by
  have hcontains (n : String) : excluded.contains n = excluded'.contains n := by
    rw [Bool.eq_iff_iff, List.contains_iff_mem, List.contains_iff_mem, h n]
  have hcallees : callees w excluded = callees w excluded' := by
    funext g
    simp only [callees, hcontains]
  have hexplore (fuel i : Nat) (g : CallGraph) :
      explore w excluded fuel i g = explore w excluded' fuel i g := by
    induction fuel generalizing i g with
    | zero => rfl
    | succ fuel ih => simp only [explore, hcallees, ih]
  exact hexplore _ _ _

end CallGraph

/-- The order of the overrides makes no difference to a specialization. -/
theorem Function.specialize_perm {overrides overrides' : List (String × Callable)}
    (distinct : (Dictionary.keys overrides).Nodup) (h : overrides.Perm overrides') (debug : Bool) :
    f.specialize overrides debug = f.specialize overrides' debug := by
  have hperm : (unwrapOverrides overrides).Perm (unwrapOverrides overrides') := h.map _
  have hkeys : Dictionary.keys (unwrapOverrides overrides) = Dictionary.keys overrides := by
    rw [Dictionary.keys, unwrapOverrides, List.map_map]
    rfl
  have hdistinct : (Dictionary.keys (unwrapOverrides overrides)).Nodup := hkeys ▸ distinct
  have hacyclic : f.checkAcyclic (unwrapOverrides overrides) =
      f.checkAcyclic (unwrapOverrides overrides') := by
    have hbuild (w : World) := CallGraph.build_congr (w := w) (f := f) fun n =>
      (hperm.map Prod.fst).mem_iff (a := n)
    simp only [checkAcyclic, Dictionary.keys, hbuild]
  have hanew : f.specializeAnew (unwrapOverrides overrides) debug =
      f.specializeAnew (unwrapOverrides overrides') debug := by
    rw [specializeAnew, specializeAnew, Dictionary.sorted_eq_of_perm hdistinct hperm]
  have hkey (w : World) : w.cacheKey f (unwrapOverrides overrides) =
      w.cacheKey f (unwrapOverrides overrides') :=
    (World.cacheKey_eq_of_reordered (World.Reordered.refl w) hperm hdistinct).symm
  simp only [specialize, hacyclic, hanew, hkey]

end

/-! ## Calls -/

namespace Run

variable {σ α β : Type} {x y : Run σ α}

/-- Both runs end in the same state, and give the same value or fail both. -/
def Like (x y : Run σ α) : Prop := ∀ s, (x s).1.toOption = (y s).1.toOption ∧ (x s).2 = (y s).2

namespace Like

theorem refl (x : Run σ α) : x.Like x := fun _ => ⟨rfl, rfl⟩

theorem bind {f g : α → Run σ β} (h : x.Like y) (hfg : ∀ a, (f a).Like (g a)) :
    (x >>= f).Like (y >>= g) := by
  intro s
  obtain ⟨hvalue, hstate⟩ := h s
  rw [bind_apply, bind_apply]
  rcases hx : x s with ⟨e | a, t⟩ <;> rcases hy : y s with ⟨e' | b, u⟩ <;>
    rw [hx, hy] at hvalue hstate <;> cases hvalue <;> cases hstate
  · exact ⟨rfl, rfl⟩
  · exact hfg a t

theorem ofOutcome {o o' : Outcome α} (h : o.toOption = o'.toOption) :
    Like (σ := σ) (Run.ofOutcome o) (Run.ofOutcome o') := by
  intro s
  cases o <;> cases o' <;> cases h <;> exact ⟨rfl, rfl⟩

theorem ite {p : Prop} [Decidable p] {x' y' : Run σ α} (h : x.Like y) (h' : x'.Like y') :
    Like (if p then x else x') (if p then y else y') := by
  split
  · exact h
  · exact h'

end Like

end Run

namespace Gateway

variable {bound : BoundCall} {ks ks' : Keywords}

/-- What a call does once the keyword arguments are sorted. -/
def perform (bound : BoundCall) (g : Gateway) (args : List Value) (r : Request) : Act Product := do
  let f := g.function
  let debug := r.debug || (← get).settings.debug
  if r.overrides.isEmpty then
    if r.returnCallable then
      Act.trace debug ("compiling `" ++ f.name ++ "` without overrides")
      return .artifact (← f.compile)
    else
      let args ← Run.ofOutcome (f.arguments args r.values)
      return .value (← f.callWith bound args)
  else
    let a ← f.specialize r.overrides debug
    if r.returnCallable then return .artifact a
    else
      let args ← Run.ofOutcome (f.arguments args r.values)
      return .value (← Run.ofExcept (a.call ampleFuel args))

theorem callWith_eq (g : Gateway) (args : List Value) (ks : Keywords) :
    g.callWith bound args ks =
      Run.ofOutcome (Request.ofKeywords g.function ks) >>= g.perform bound args := rfl

theorem perform_reordered (g : Gateway) (args : List Value) {q q' : Request}
    (h : q.Reordered q') (hoverrides : (Dictionary.keys q.overrides).Nodup)
    (hvalues : (Dictionary.keys q.values).Nodup ∧
      ∀ n ∈ Dictionary.keys q.values, n ∈ g.function.params) :
    (g.perform bound args q).Like (g.perform bound args q') := by
  have harguments : (g.function.arguments args q.values).toOption =
      (g.function.arguments args q'.values).toOption :=
    Function.arguments_perm hvalues.1 hvalues.2 h.values
  have hempty : q.overrides.isEmpty = q'.overrides.isEmpty := by
    rw [Bool.eq_iff_iff, List.isEmpty_iff, List.isEmpty_iff]
    exact ⟨fun he => (he ▸ h.overrides).nil_eq.symm, fun he => (he ▸ h.overrides).eq_nil⟩
  have hspecialize (debug : Bool) := g.function.specialize_perm hoverrides h.overrides debug
  rw [perform, perform, h.returnCallable, h.debug, hempty]
  refine (Run.Like.refl _).bind fun w => .ite (.ite (.refl _) ?_) ?_
  · exact (Run.Like.ofOutcome harguments).bind fun _ => .refl _
  · rw [hspecialize]
    exact (Run.Like.refl _).bind fun a => .ite (.refl _)
      ((Run.Like.ofOutcome harguments).bind fun _ => .refl _)

theorem callWith_perm (g : Gateway) (args : List Value) (h : ks.Perm ks') :
    (g.callWith bound args ks).Like (g.callWith bound args ks') := by
  rw [callWith_eq, callWith_eq]
  cases hq : Request.ofKeywords g.function ks with
  | ok q =>
      obtain ⟨q', hq', hreordered⟩ := Request.ofKeywords_perm h hq
      rw [hq']
      exact g.perform_reordered args hreordered (Request.overrides_ofKeywords hq).1
        (Request.values_ofKeywords hq)
  | error d =>
      cases hq' : Request.ofKeywords g.function ks' with
      | ok q' =>
          obtain ⟨q, hq₂, -⟩ := Request.ofKeywords_perm h.symm hq'
          rw [hq] at hq₂
          cases hq₂
      | error d' => exact fun w => ⟨rfl, rfl⟩

/-- Arguments are bound exactly, and in whatever order keyword arguments come. If no two parameters
have one name, as in every text that is accepted, then the arguments of a call can be put in order
exactly if those given by name are the parameters after those given by position, and each parameter
has the value that was given for it. A call with the keyword arguments in another order gives the
same value or the same artifact, or both calls fail. -/
theorem binds_exactly (g : Gateway) :
    (g.function.params.Nodup → ∀ args named, (Dictionary.keys named).Nodup →
      (∀ n ∈ Dictionary.keys named, n ∈ g.function.params) →
      ((∃ vs, g.function.arguments args named = .ok vs) ↔ args.length ≤ g.function.arity ∧
        ∀ n, n ∈ Dictionary.keys named ↔ n ∈ g.function.params.drop args.length) ∧
      ∀ vs, g.function.arguments args named = .ok vs → ∀ i, vs[i]? =
        if i < args.length then args[i]?
        else g.function.params[i]?.bind fun n => Dictionary.get? n named) ∧
    ∀ args (ks ks' : Keywords) (w : World), ks.Perm ks' →
      (g.call args ks w).1.toOption = (g.call args ks' w).1.toOption ∧
        (g.call args ks w).2 = (g.call args ks' w).2 :=
  ⟨fun single _ _ distinct known => g.function.arguments_exact single distinct known,
    fun args _ _ w h => g.callWith_perm args h w⟩

/-- A text of a function of two parameters. -/
def pairText : SourceText := ⟨"m.fst", "fn f(a, b) { a }\n"⟩

def pairGateway : Gateway := ⟨5, Pass.loadAt pairText 2 ⟨0, 16⟩⟩

theorem binds_exactly_pair :
    (∃ vs, pairGateway.function.arguments [.bool true] [("b", .bool false)] = .ok vs ∧
      vs[0]? = some (.bool true) ∧ vs[1]? = some (.bool false)) ∧
    (pairGateway.call [] [("a", .value (.bool true)), ("debug", .flag true),
        ("b", .value (.bool false))] Pass.chainWorld).1.toOption =
      (pairGateway.call [] [("debug", .flag true), ("b", .value (.bool false)),
        ("a", .value (.bool true))] Pass.chainWorld).1.toOption := by
  have hparams : pairGateway.function.params = ["a", "b"] := by decide +kernel
  have harity : pairGateway.function.arity = 2 := by decide +kernel
  obtain ⟨hexact, horder⟩ := binds_exactly pairGateway
  rw [hparams, harity] at hexact
  obtain ⟨hok, hvalues⟩ := hexact (by decide) [.bool true] [("b", .bool false)] (by decide)
    (by decide)
  obtain ⟨vs, hvs⟩ := hok.mpr ⟨by decide, fun n => Iff.rfl⟩
  refine ⟨⟨vs, hvs, hvalues vs hvs 0, hvalues vs hvs 1⟩, (horder _ _ _ _ ?_).1⟩
  exact (List.Perm.swap ..).trans (.cons _ (.swap ..))

end Gateway

end Graft
