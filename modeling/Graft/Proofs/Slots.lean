import Graft.Artifact.Compile
import Graft.Artifact.Run
import Mathlib.Tactic.Common

/-!
# Slots and local variables

The slots of an artifact hold what the local variables hold: a name of the layout has in its slot the
value that it has as a variable, or none. Binding a name and filling its slot keep this so.
-/

namespace Graft

namespace Compile

/-! ## Places in a layout -/

theorem getElem?_slotOf {name : String} {names : List String} (h : name ∈ names) :
    names[slotOf name names]? = some name := by
  induction names with
  | nil => cases h
  | cons n rest ih =>
      rw [slotOf]
      split
      · next hn => rw [hn.1]; rfl
      · next hn =>
          have hr : name ∈ rest := by
            rcases List.mem_cons.mp h with rfl | hr
            · by_contra hr
              exact hn ⟨rfl, hr⟩
            · exact hr
          rw [List.getElem?_cons_succ, ih hr]

theorem slotOf_lt {name : String} {names : List String} (h : name ∈ names) :
    slotOf name names < names.length := by
  have hs := getElem?_slotOf h
  by_contra hlt
  rw [List.getElem?_eq_none (Nat.le_of_not_lt hlt)] at hs
  cases hs

/-- Different names have different slots. -/
theorem slotOf_inj {a b : String} {names : List String} (ha : a ∈ names) (hb : b ∈ names)
    (h : slotOf a names = slotOf b names) : a = b := by
  have hs := getElem?_slotOf ha
  rw [h, getElem?_slotOf hb] at hs
  exact (Option.some.inj hs).symm

theorem slotOf_append_left {name : String} {names more : List String} (h : name ∈ names)
    (hm : name ∉ more) : slotOf name (names ++ more) = slotOf name names := by
  induction names with
  | nil => cases h
  | cons n rest ih =>
      simp only [List.cons_append, slotOf, List.mem_append, hm, or_false]
      split
      · rfl
      · next hn =>
          have hr : name ∈ rest := by
            rcases List.mem_cons.mp h with rfl | hr
            · by_contra hr
              exact hn ⟨rfl, hr⟩
            · exact hr
          rw [ih hr]

/-! ## Names of a layout -/

/-- A layout is the parameters and then names that are none. -/
theorem layout_eq (d : Definition) :
    ∃ more, layout d = d.params.map Ident.text ++ more ∧
      (∀ n ∈ more, n ∉ d.params.map Ident.text) := by
  -- Adding names one by one keeps the form: a name already there is not added again.
  have grow : ∀ (names : List String) (more : List String),
      (∀ n ∈ more, n ∉ d.params.map Ident.text) →
      ∃ more', names.foldl (fun names n => if names.contains n then names else names ++ [n])
          (d.params.map Ident.text ++ more) = d.params.map Ident.text ++ more' ∧
        ∀ n ∈ more', n ∉ d.params.map Ident.text := by
    intro names
    induction names with
    | nil => exact fun more hm => ⟨more, rfl, hm⟩
    | cons n rest ih =>
        intro more hm
        rw [List.foldl_cons]
        by_cases hn : (d.params.map Ident.text ++ more).contains n = true
        · rw [if_pos hn]
          exact ih more hm
        · rw [if_neg hn, List.append_assoc]
          refine ih (more ++ [n]) fun m hmem => ?_
          rcases List.mem_append.mp hmem with hmem | hmem
          · exact hm m hmem
          · rw [List.mem_singleton.mp hmem]
            exact fun hp => hn (by simpa using Or.inl (by simpa using hp))
  obtain ⟨more, he, hm⟩ := grow (d.boundNames ++ d.storedArrays) [] (by simp)
  exact ⟨more, by simpa [layout] using he, hm⟩

theorem mem_layout {d : Definition} {n : String} :
    n ∈ layout d ↔ n ∈ d.params.map Ident.text ∨ n ∈ d.boundNames ∨ n ∈ d.storedArrays := by
  have grow : ∀ (names start : List String),
      n ∈ names.foldl (fun names n => if names.contains n then names else names ++ [n]) start ↔
        n ∈ start ∨ n ∈ names := by
    intro names
    induction names with
    | nil => simp
    | cons m rest ih =>
        intro start
        rw [List.foldl_cons, ih]
        by_cases hm : start.contains m = true
        · rw [if_pos hm, List.mem_cons]
          constructor
          · rintro (h | h)
            · exact .inl h
            · exact .inr (.inr h)
          · rintro (h | rfl | h)
            · exact .inl h
            · exact .inl (by simpa using hm)
            · exact .inr h
        · rw [if_neg hm, List.mem_append, List.mem_singleton, List.mem_cons, or_assoc]
  rw [layout, grow, List.mem_append]

end Compile

/-- What a name is bound to after names were bound one after another: the last of them counts. -/
theorem Locals.get?_setAll {names : List String} {vs : List Value} (locals : Locals) (n : String)
    (h : vs.length = names.length) :
    (locals.setAll names vs).get? n =
      if n ∈ names then vs[Compile.slotOf n names]? else locals.get? n := by
  induction names generalizing locals vs with
  | nil => simp [setAll]
  | cons m rest ih =>
      cases vs with
      | nil => cases h
      | cons v vs =>
          have hs : locals.setAll (m :: rest) (v :: vs) = (locals.set m v).setAll rest vs := rfl
          rw [hs, ih _ (Nat.succ.inj h)]
          by_cases hr : n ∈ rest
          · simp [hr, Compile.slotOf]
          · by_cases hm : n = m
            · subst hm
              simp [hr, Compile.slotOf]
            · simp [hr, hm, Locals.get?_set_of_ne hm]

/-! ## Slots that hold local variables -/

open Compile in
/-- The slots hold the local variables, and no other name is local. -/
structure Slots.Hold (layout : List String) (locals : Locals) (slots : Slots) : Prop where
  size : slots.size = layout.length
  held : ∀ n ∈ layout, slots.getD (slotOf n layout) none = locals.get? n
  only : ∀ n, n ∉ layout → locals.get? n = none

namespace Slots.Hold

open Compile

variable {layout : List String} {locals : Locals} {slots : Slots}

/-- Binding a name and filling its slot. -/
theorem set (h : Slots.Hold layout locals slots) {n : String} (hn : n ∈ layout) (v : Value) :
    Slots.Hold layout (locals.set n v) (slots.setIfInBounds (slotOf n layout) (some v)) where
  size := by rw [Array.size_setIfInBounds, h.size]
  held m hm := by
    have hlt : slotOf m layout < slots.size := h.size ▸ slotOf_lt hm
    have hlt' : slotOf m layout < (slots.setIfInBounds (slotOf n layout) (some v)).size := by
      rw [Array.size_setIfInBounds]
      exact hlt
    rw [Array.getD_eq_getD_getElem?, Array.getElem?_eq_getElem hlt', Option.getD_some,
      Array.getElem_setIfInBounds hlt]
    by_cases hmn : m = n
    · subst hmn
      simp
    · have hne : slotOf n layout ≠ slotOf m layout := fun he => hmn (slotOf_inj hm hn he.symm)
      have hh := h.held m hm
      rw [Array.getD_eq_getD_getElem?, Array.getElem?_eq_getElem hlt, Option.getD_some] at hh
      rw [if_neg hne, hh, Locals.get?_set_of_ne hmn]
  only m hm := by
    have hmn : m ≠ n := fun he => hm (he ▸ hn)
    rw [Locals.get?_set_of_ne hmn, h.only m hm]

/-- The slots at the start of a call hold the arguments. -/
theorem start {d : Definition} {args : List Value} (h : args.length = d.params.length) :
    Slots.Hold (Compile.layout d) (Locals.setAll [] (d.params.map Ident.text) args)
      ((args.map some).toArray ++
        Array.replicate ((Compile.layout d).length - args.length) none) := by
  obtain ⟨more, he, hm⟩ := Compile.layout_eq d
  have hlen : args.length = (d.params.map Ident.text).length := by simpa using h
  have hget := fun n => Locals.get?_setAll [] n hlen
  refine ⟨?_, fun n hn => ?_, fun n hn => ?_⟩
  · simp [he, h]
  · rw [hget, Array.getD_eq_getD_getElem?]
    by_cases hp : n ∈ d.params.map Ident.text
    · have hs : slotOf n (Compile.layout d) = slotOf n (d.params.map Ident.text) := by
        rw [he]
        exact slotOf_append_left hp fun hmem => hm n hmem hp
      have hlt : slotOf n (d.params.map Ident.text) < args.length := hlen ▸ slotOf_lt hp
      rw [if_pos hp, hs, Array.getElem?_append_left (by simpa using hlt)]
      simp [List.getElem?_eq_getElem hlt]
    · have hge : args.length ≤ slotOf n (Compile.layout d) := by
        -- A slot below the number of arguments is that of a parameter.
        by_contra hlt
        have hget := getElem?_slotOf hn
        rw [he] at hlt hget
        rw [List.getElem?_append_left (by omega)] at hget
        exact hp (List.mem_of_getElem? hget)
      rw [if_neg hp, Array.getElem?_append_right (by simpa using hge), Array.getElem?_replicate]
      simp only [Locals.get?]
      split <;> rfl
  · rw [hget, if_neg fun hp => hn (mem_layout.mpr (.inl hp))]
    rfl

end Slots.Hold

end Graft
