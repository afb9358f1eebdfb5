import Graft.Proofs.Callees
import Graft.Proofs.Frames

/-!
# Slots of names

Compilation gives a slot to each name that the definition binds or stores into, and to no other. The
code mentions, one after the other, the slots of the names that the body mentions, and names without
a slot leave no mention. So a call needs no slot that its frame has not, in whatever order the names
are bound and used.
-/

namespace Graft

open Compile (Target)

/-! ## Names that a body mentions -/

/-- The name that an expression itself reads, its parts apart. -/
def Expr.mention? : Expr → Option (Mention String)
  | .var n _ => some ⟨.read, n⟩
  | _ => none

/-- The names that are read among the expressions. -/
def readsIn (es : List Expr) : List (Mention String) := es.filterMap Expr.mention?

/-- The name that a place itself is under, its index apart. -/
def Place.mention? : Place → Option (Mention String)
  | .var n _ => some ⟨.assigned, n⟩
  | .discard _ => none
  | .index base _ _ => some ⟨.stored, base.text⟩

def Place.mentions (p : Place) : List (Mention String) := p.mention?.toList ++ readsIn p.subterms

mutual

/-- The names in a statement, in the order in which they are looked up. -/
def Stmt.mentions : Stmt → List (Mention String)
  | .bind t e _ => readsIn e.subterms ++ t.idents.map fun n => ⟨.bound, n.text⟩
  | .assign p e _ => readsIn e.subterms ++ p.mentions
  | .assignTuple ps e _ => readsIn e.subterms ++ ps.flatMap Place.mentions
  | .branch c yes none _ => readsIn c.subterms ++ Block.mentions yes
  | .branch c yes (some no) _ => readsIn c.subterms ++ Block.mentions yes ++ Block.mentions no
  | .forRange v a b body _ =>
    ⟨.bound, v.text⟩ :: (readsIn a.subterms ++ readsIn b.subterms ++ Block.mentions body)
  | .whileLoop c body _ => readsIn c.subterms ++ Block.mentions body
  | .eval e _ => readsIn e.subterms
  | .give (some e) _ => readsIn e.subterms
  | .give none _ => []
  termination_by structural s => s

def Block.mentions : Block → List (Mention String)
  | .mk ss none _ => Block.mentionsAll ss
  | .mk ss (some e) _ => Block.mentionsAll ss ++ readsIn e.subterms
  termination_by structural b => b

def Block.mentionsAll : List Stmt → List (Mention String)
  | [] => []
  | s :: ss => Stmt.mentions s ++ Block.mentionsAll ss
  termination_by structural ss => ss

end

@[simp] theorem readsIn_append (es fs : List Expr) :
    readsIn (es ++ fs) = readsIn es ++ readsIn fs := List.filterMap_append

theorem readsIn_part {e : Expr} (h : e.mention? = none) (es : List Expr) :
    readsIn (es ++ [e]) = readsIn es := by
  rw [readsIn, List.filterMap_append, List.filterMap_cons, h]
  exact List.append_nil _

/-- Names as they are read, bound, and assigned or stored into. -/
def namesOf (es : List Expr) (binders : List String) (places : List Place) :
    List (Mention String) :=
  readsIn es ++ binders.map (Mention.mk .bound) ++ places.filterMap Place.mention?

theorem count_namesOf (m : Mention String) (es : List Expr) (binders : List String)
    (places : List Place) :
    (namesOf es binders places).count m =
      (readsIn es).count m + (binders.map (Mention.mk .bound)).count m +
        (places.filterMap Place.mention?).count m := by
  rw [namesOf, List.count_append, List.count_append]

theorem Place.count_mentions (m : Mention String) (ps : List Place) :
    (ps.flatMap mentions).count m =
      (readsIn (ps.flatMap subterms)).count m + (ps.filterMap mention?).count m := by
  rw [List.filterMap_eq_flatMap_toList]
  induction ps with
  | nil => rfl
  | cons p ps ih =>
      simp only [List.flatMap_cons, mentions, readsIn_append, List.count_append, ih]
      omega

theorem Block.count_mentionsAll {m : Mention String} {ss : List Stmt}
    (h : ∀ x ∈ ss, x.mentions.count m = (namesOf x.subterms x.binders x.places).count m) :
    (mentionsAll ss).count m =
      (namesOf (subtermsAll ss) (bindersAll ss) (placesAll ss)).count m := by
  induction ss with
  | nil => rfl
  | cons x ss ih =>
      have hx := h x List.mem_cons_self
      have hss := ih fun y hy => h y (List.mem_cons_of_mem x hy)
      simp only [count_namesOf] at hx hss
      simp only [mentionsAll, subtermsAll, bindersAll, placesAll, count_namesOf, readsIn_append,
        List.map_append, List.filterMap_append, List.count_append, hx, hss]
      omega

/-- A body mentions its reads, its binders and its places, each as often as they occur. -/
theorem Block.count_mentions (m : Mention String) (b : Block) :
    b.mentions.count m = (namesOf b.subterms b.binders b.places).count m := by
  refine Block.induction
    (fun x => x.mentions.count m = (namesOf x.subterms x.binders x.places).count m)
    (fun b => b.mentions.count m = (namesOf b.subterms b.binders b.places).count m)
    ?bind ?assign ?assignTuple ?branch ?branchElse ?forRange ?whileLoop ?eval ?give ?mk b
  case bind =>
    intro t e span
    simp only [Stmt.mentions, Stmt.subterms, Stmt.binders, Stmt.places, count_namesOf,
      List.count_append, List.map_map, List.filterMap_nil, List.count_nil, Nat.add_zero]
    rfl
  case assign =>
    intro p e span
    have hp := Place.count_mentions m [p]
    simp only [List.flatMap_singleton] at hp
    simp only [Stmt.mentions, Stmt.subterms, Stmt.binders, Stmt.places, count_namesOf,
      readsIn_append, List.count_append, List.map_nil, List.count_nil, hp]
    omega
  case assignTuple =>
    intro ps e span
    simp only [Stmt.mentions, Stmt.subterms, Stmt.binders, Stmt.places, count_namesOf,
      readsIn_append, List.count_append, List.map_nil, List.count_nil, Place.count_mentions]
    omega
  case branch =>
    intro c yes span ihy
    rw [count_namesOf] at ihy
    simp only [Stmt.mentions, Stmt.subterms, Stmt.binders, Stmt.places, count_namesOf,
      readsIn_append, List.count_append, ihy]
    omega
  case branchElse =>
    intro c yes no span ihy ihn
    rw [count_namesOf] at ihy ihn
    simp only [Stmt.mentions, Stmt.subterms, Stmt.binders, Stmt.places, count_namesOf,
      readsIn_append, List.map_append, List.filterMap_append, List.count_append, ihy, ihn]
    omega
  case forRange =>
    intro v a b body span ih
    rw [count_namesOf] at ih
    simp only [Stmt.mentions, Stmt.subterms, Stmt.binders, Stmt.places, count_namesOf,
      readsIn_append, List.map_cons, List.count_cons, List.count_append, ih]
    omega
  case whileLoop =>
    intro c body span ih
    rw [count_namesOf] at ih
    simp only [Stmt.mentions, Stmt.subterms, Stmt.binders, Stmt.places, count_namesOf,
      readsIn_append, List.count_append, ih]
    omega
  case eval =>
    intro e span
    simp only [Stmt.mentions, Stmt.subterms, Stmt.binders, Stmt.places, count_namesOf,
      List.map_nil, List.filterMap_nil, List.count_nil, Nat.add_zero]
  case give =>
    intro v span
    cases v with
    | none => rfl
    | some e =>
        simp only [Stmt.mentions, Stmt.subterms, Stmt.binders, Stmt.places, count_namesOf,
          List.map_nil, List.filterMap_nil, List.count_nil, Nat.add_zero]
  case mk =>
    intro ss tail span ih
    have hall := count_mentionsAll ih
    rw [count_namesOf] at hall
    cases tail with
    | none =>
        simp only [Block.mentions, Block.subterms, Block.binders, Block.places, count_namesOf, hall]
    | some e =>
        simp only [Block.mentions, Block.subterms, Block.binders, Block.places, count_namesOf,
          readsIn_append, List.count_append, hall]
        omega

/-- A body mentions its reads, its binders and its places, in the order in which it is lowered. -/
theorem Block.mentions_perm (b : Block) :
    b.mentions.Perm (namesOf b.subterms b.binders b.places) :=
  List.perm_iff_count.mpr fun m => b.count_mentions m

/-! ## Lowered names -/

/-- What a mention of a name becomes: one of its slot. A name that is read and has no slot is a
constant, and leaves no mention. -/
def Compile.Context.mention? (c : Compile.Context) (m : Mention String) : Option (Mention Nat) :=
  if m.use = .read ∧ m.what ∉ c.layout then none else some ⟨m.use, c.slot m.what⟩

theorem Compile.Context.mention?_of_ne {c : Compile.Context} {u : Use} (h : u ≠ .read)
    (n : String) : c.mention? ⟨u, n⟩ = some ⟨u, c.slot n⟩ := if_neg fun hread => h hread.1

/-- The code of a part of a tree mentions the slots of the names in the part, and nothing but
artifacts that `linked` holds of is linked into it. -/
structure Lower.Allots (c : Compile.Context) (linked : Artifact → Prop)
    (names : List (Mention String)) (slots : List (Mention Nat)) (targets : List Target) :
    Prop where
  slots : slots = names.filterMap c.mention?
  linked : ∀ a, Target.artifact a ∈ targets → linked a

namespace Lower.Allots

variable {c : Compile.Context} {linked : Artifact → Prop} {names names' : List (Mention String)}
  {slots slots' : List (Mention Nat)} {targets targets' : List Target}

theorem nil : Allots c linked [] [] [] := ⟨rfl, fun _ h => absurd h List.not_mem_nil⟩

theorem append (h : Allots c linked names slots targets)
    (h' : Allots c linked names' slots' targets') :
    Allots c linked (names ++ names') (slots ++ slots') (targets ++ targets') where
  slots := by rw [h.slots, h'.slots, List.filterMap_append]
  linked a ha := (List.mem_append.mp ha).elim (h.linked a) (h'.linked a)

/-- A place is lowered after the value that is put there, and its targets stand before those of the
value. -/
theorem append_swap (h : Allots c linked names slots targets)
    (h' : Allots c linked names' slots' targets') :
    Allots c linked (names ++ names') (slots ++ slots') (targets' ++ targets) where
  slots := (h.append h').slots
  linked a ha := (List.mem_append.mp ha).elim (h'.linked a) (h.linked a)

/-- Names that are bound, assigned or stored into have slots. -/
theorem bind {α : Type} {u : Use} (hu : u ≠ .read) (ns : List α) (name : α → String) :
    Allots c linked (ns.map fun n => ⟨u, name n⟩)
      ((ns.map fun n => c.slot (name n)).map (Mention.mk u)) [] where
  slots := by
    simp only [List.filterMap_map, List.map_map, Function.comp_def,
      Compile.Context.mention?_of_ne hu, List.filterMap_eq_map']
  linked _ h := absurd h List.not_mem_nil

/-- A name that is read. -/
theorem read {n : String} {span : Span} {code : Code}
    (h : Compile.variable_ c n span = .ok code) :
    Allots c linked [⟨.read, n⟩] code.mentions code.targets := by
  rw [Compile.variable_] at h
  split at h
  · next hn =>
      cases h
      have hmem : n ∈ c.layout := List.contains_iff_mem.mp hn
      exact ⟨by simp [Code.mentions, Compile.Context.mention?, hmem],
        fun _ h => absurd h List.not_mem_nil⟩
  · next hn =>
      have hnot : n ∉ c.layout := fun hm => hn (List.contains_iff_mem.mpr hm)
      have hconstant : ∃ v, code = .constant v span := by
        split at h
        · cases h
          exact ⟨_, rfl⟩
        · split at h <;> cases h
          exact ⟨_, rfl⟩
      obtain ⟨v, rfl⟩ := hconstant
      exact ⟨by simp [Code.mentions, Compile.Context.mention?, hnot],
        fun _ h => absurd h List.not_mem_nil⟩

/-- A call, whose target comes after those of its arguments. -/
theorem call {t : Target} (h : Allots c linked names slots targets)
    (ht : ∀ a, t = .artifact a → linked a) : Allots c linked names slots (targets ++ [t]) where
  slots := h.slots
  linked a ha := (List.mem_append.mp ha).elim (h.linked a) fun ha =>
    ht a (List.mem_singleton.mp ha).symm

end Lower.Allots

section

variable {c : Compile.Context} {inv : Compile.State → Prop} {linked : Artifact → Prop}

/-- What is shown of an expression. -/
abbrev Expr.Allots (c : Compile.Context) (inv : Compile.State → Prop) (linked : Artifact → Prop)
    (e : Expr) : Prop :=
  Lower.Ensures inv (e.lower c) fun code =>
    Lower.Allots c linked (readsIn e.subterms) code.mentions code.targets

theorem Expr.lowerAll_allots {es : List Expr} (h : ∀ e ∈ es, e.Allots c inv linked) :
    Lower.Ensures inv (Expr.lower.lowerAll c es) fun codes =>
      Lower.Allots c linked (readsIn (Expr.subterms.subtermsAll es)) (Code.mentionsAll codes)
        (Code.targetsAll codes) := by
  induction es with
  | nil => exact .pure .nil
  | cons e rest ih =>
      have hrest := ih fun e' he => h e' (List.mem_cons_of_mem e he)
      rw [Expr.lower.lowerAll, Expr.subterms.subtermsAll, readsIn_append]
      exact (h e List.mem_cons_self).bind fun code hcode => hrest.bind fun codes hcodes =>
        .pure (hcode.append hcodes)

variable (htarget : ∀ p span, Lower.Ensures inv (Compile.target c p span) fun t =>
  ∀ a, t = .artifact a → linked a)

include htarget

theorem Expr.lower_allots (e : Expr) : e.Allots c inv linked := by
  induction e with
  | num x span => exact .pure .nil
  | bool b span => exact .pure .nil
  | var n span => exact (Lower.Ensures.ofOutcome _).mono fun code hcode => .read hcode
  | path p span => exact (Lower.Ensures.ofOutcome _).bind fun v _ => .pure .nil
  | binary op l r span ihl ihr =>
      rw [Expr.Allots, Expr.lower, Expr.subterms, readsIn_part rfl, readsIn_append]
      refine ihl.bind fun left hleft => ihr.bind fun right hright => ?_
      cases op <;> exact .pure (hleft.append hright)
  | unary op x span ih =>
      rw [Expr.Allots, Expr.lower, Expr.subterms, readsIn_part rfl]
      exact ih.bind fun code hcode => .pure hcode
  | call p calleeSpan args span ih =>
      rw [Expr.Allots, Expr.lower, Expr.subterms, readsIn_part rfl]
      refine (htarget p calleeSpan).bind fun t ht => ?_
      refine (lowerAll_allots ih).bind fun codes hcodes => ?_
      cases t <;> exact .pure (hcodes.call ht)
  | index x i span ihx ihi =>
      rw [Expr.Allots, Expr.lower, Expr.subterms, readsIn_part rfl, readsIn_append]
      exact ihx.bind fun base hbase => ihi.bind fun at_ hat => .pure (hbase.append hat)
  | slice x a b span ihx iha ihb =>
      rw [Expr.Allots, Expr.lower, Expr.subterms, readsIn_part rfl, readsIn_append, readsIn_append]
      exact ihx.bind fun base hbase => iha.bind fun first hfirst => ihb.bind fun last hlast =>
        .pure ((hbase.append hfirst).append hlast)
  | array es span ih =>
      rw [Expr.Allots, Expr.lower, Expr.subterms, readsIn_part rfl]
      exact (lowerAll_allots ih).bind fun codes hcodes => .pure hcodes
  | tuple es span ih =>
      rw [Expr.Allots, Expr.lower, Expr.subterms, readsIn_part rfl]
      exact (lowerAll_allots ih).bind fun codes hcodes => .pure hcodes

theorem Place.lower_allots (p : Place) :
    Lower.Ensures inv (p.lower c) fun store =>
      Lower.Allots c linked p.mentions store.mentions store.targets := by
  cases p with
  | var n span => exact .pure (.bind (u := .assigned) (by decide) [n] id)
  | discard span => exact .pure .nil
  | index base i span =>
      rw [Place.lower]
      exact (Expr.lower_allots htarget i).bind fun code hcode =>
        .pure ((Lower.Allots.bind (u := .stored) (by decide) [base] Ident.text).append hcode)

theorem Place.lowerPlaces_allots (ps : List Place) :
    Lower.Ensures inv (Compile.lowerPlaces c ps) fun stores =>
      Lower.Allots c linked (ps.flatMap mentions) (stores.flatMap Store.mentions)
        (stores.flatMap Store.targets) := by
  induction ps with
  | nil => exact .pure .nil
  | cons p rest ih =>
      rw [Compile.lowerPlaces, List.flatMap_cons]
      exact (p.lower_allots htarget).bind fun store hstore => ih.bind fun stores hstores =>
        .pure (hstore.append hstores)

omit htarget

/-- What is shown of a statement. -/
abbrev Stmt.Allots (c : Compile.Context) (inv : Compile.State → Prop) (linked : Artifact → Prop)
    (x : Stmt) : Prop :=
  Lower.Ensures inv (x.lower c) fun step =>
    Lower.Allots c linked x.mentions step.mentions step.targets

/-- What is shown of a block. -/
abbrev Block.Allots (c : Compile.Context) (inv : Compile.State → Prop) (linked : Artifact → Prop)
    (b : Block) : Prop :=
  Lower.Ensures inv (b.lower c) fun steps =>
    Lower.Allots c linked b.mentions steps.mentions steps.targets

theorem Block.lowerAll_allots {ss : List Stmt} (h : ∀ x ∈ ss, x.Allots c inv linked) :
    Lower.Ensures inv (Block.lowerAll c ss) fun steps =>
      Lower.Allots c linked (Block.mentionsAll ss) (Steps.mentionsAll steps)
        (Steps.targetsAll steps) := by
  induction ss with
  | nil => exact .pure .nil
  | cons x rest ih =>
      have hrest := ih fun y hy => h y (List.mem_cons_of_mem x hy)
      rw [Block.lowerAll, Block.mentionsAll]
      exact (h x List.mem_cons_self).bind fun step hstep => hrest.bind fun steps hsteps =>
        .pure (hstep.append hsteps)

include htarget

theorem Block.lower_allots (b : Block) : b.Allots c inv linked := by
  have lower := Expr.lower_allots htarget
  refine Block.induction (fun x => x.Allots c inv linked) (fun b => b.Allots c inv linked)
    ?bind ?assign ?assignTuple ?branch ?branchElse ?forRange ?whileLoop ?eval ?give ?mk b
  case bind =>
    intro t e span
    cases t with
    | name n =>
        exact (lower e).bind fun code hcode =>
          .pure (hcode.append_swap (.bind (u := .bound) (by decide) [n] Ident.text))
    | names ns =>
        exact (lower e).bind fun code hcode =>
          .pure (hcode.append_swap (.bind (u := .bound) (by decide) ns Ident.text))
  case assign =>
    intro p e span
    rw [Stmt.Allots, Stmt.lower, Stmt.mentions]
    exact (lower e).bind fun value hvalue => (p.lower_allots htarget).bind fun store hstore =>
      .pure (hvalue.append_swap hstore)
  case assignTuple =>
    intro ps e span
    rw [Stmt.Allots, Stmt.lower, Stmt.mentions]
    exact (lower e).bind fun value hvalue =>
      (Place.lowerPlaces_allots htarget ps).bind fun stores hstores =>
        .pure (hvalue.append_swap hstores)
  case branch =>
    intro e yes span ihy
    rw [Stmt.Allots, Stmt.lower, Stmt.mentions]
    exact (lower e).bind fun condition hcond => ihy.bind fun steps hsteps =>
      .pure (hcond.append hsteps)
  case branchElse =>
    intro e yes no span ihy ihn
    rw [Stmt.Allots, Stmt.lower, Stmt.mentions]
    exact (lower e).bind fun condition hcond => ihy.bind fun steps hsteps =>
      ihn.bind fun steps' hsteps' => .pure ((hcond.append hsteps).append hsteps')
  case forRange =>
    intro v a b body span ih
    rw [Stmt.Allots, Stmt.lower, Stmt.mentions]
    exact (lower a).bind fun first hfirst => (lower b).bind fun last hlast =>
      ih.bind fun steps hsteps => .pure
        ((Lower.Allots.bind (u := .bound) (by decide) [v] Ident.text).append
          ((hfirst.append hlast).append hsteps))
  case whileLoop =>
    intro e body span ih
    rw [Stmt.Allots, Stmt.lower, Stmt.mentions]
    exact (lower e).bind fun condition hcond => ih.bind fun steps hsteps =>
      .pure (hcond.append hsteps)
  case eval =>
    intro e span
    exact (lower e).bind fun code hcode => .pure hcode
  case give =>
    intro v span
    cases v with
    | none => exact .pure .nil
    | some e =>
        rw [Stmt.Allots, Stmt.lower, Compile.lowerOption, bind_assoc]
        exact (lower e).bind fun code hcode => .pure hcode
  case mk =>
    intro ss tail span ih
    have hall := lowerAll_allots ih
    rw [Block.Allots, Block.lower]
    cases tail with
    | none => exact hall.bind fun steps hsteps => .pure hsteps
    | some e =>
        refine hall.bind fun steps hsteps => ?_
        rw [Compile.lowerOption, bind_assoc]
        exact (lower e).bind fun code hcode => .pure (hsteps.append hcode)

end

/-! ## Slots of a definition -/

namespace Definition

open Compile (slotOf getElem?_slotOf slotOf_lt slotOf_inj mem_layout)

variable {d : Definition} {n n' : String} {i : Nat}

/-- The slot that a name has in calls of the definition, if it has one. -/
def slot? (d : Definition) (n : String) : Option Nat :=
  if n ∈ Compile.layout d then some (slotOf n (Compile.layout d)) else none

theorem slot?_eq_some :
    d.slot? n = some i ↔ n ∈ Compile.layout d ∧ slotOf n (Compile.layout d) = i := by
  rw [slot?]
  split
  · next h => simp [h]
  · next h => simp [h]

/-- The names with a slot are those that the definition binds and those that it stores into. -/
theorem isSome_slot? : (d.slot? n).isSome ↔ n ∈ d.boundNames ∨ n ∈ d.storedArrays := by
  have hslot : (d.slot? n).isSome ↔ n ∈ Compile.layout d := by
    rw [slot?]
    split
    · next h => simp [h]
    · next h => simp [h]
  have hparams : n ∈ d.params.map Ident.text → n ∈ d.boundNames := fun h =>
    Ordered.mem_ofList.mpr (List.mem_append_left _ (List.mem_append_left _ h))
  rw [hslot, mem_layout]
  exact ⟨fun h => h.elim (fun h => .inl (hparams h)) id, .inr⟩

theorem slot?_inj (h : d.slot? n = some i) (h' : d.slot? n' = some i) : n = n' := by
  obtain ⟨hn, rfl⟩ := slot?_eq_some.mp h
  obtain ⟨hn', he⟩ := slot?_eq_some.mp h'
  exact slotOf_inj hn hn' he.symm

theorem slot?_lt (h : d.slot? n = some i) : i < (Compile.layout d).length := by
  obtain ⟨hn, rfl⟩ := slot?_eq_some.mp h
  exact slotOf_lt hn

/-- A parameter has the slot that its argument is put into, if no name is repeated. -/
theorem slot?_param (distinct : (d.params.map Ident.text).Nodup) (hi : i < d.params.length) :
    d.slot? d.params[i].text = some i := by
  obtain ⟨more, he, hmore⟩ := Compile.layout_eq d
  have hmem : d.params[i].text ∈ d.params.map Ident.text :=
    List.mem_map_of_mem (List.getElem_mem hi)
  refine slot?_eq_some.mpr ⟨he ▸ List.mem_append_left _ hmem, ?_⟩
  rw [he, Compile.slotOf_append_left hmem fun h => hmore _ h hmem]
  have hat : (d.params.map Ident.text)[i]? = some d.params[i].text := by
    rw [List.getElem?_map, List.getElem?_eq_getElem hi]
    rfl
  exact (List.getElem?_inj (slotOf_lt hmem) distinct).mp ((getElem?_slotOf hmem).trans hat.symm)

/-- The slot in place of a name, where the name has one. -/
def mention? (d : Definition) (m : Mention String) : Option (Mention Nat) :=
  (d.slot? m.what).map (Mention.mk m.use)

/-- A name that the body mentions and does not read has a slot. -/
theorem mem_layout_of_mention {m : Mention String} (hm : m ∈ d.body.mentions)
    (hu : m.use ≠ .read) : m.what ∈ Compile.layout d := by
  rw [d.body.mentions_perm.mem_iff, namesOf, List.mem_append, List.mem_append] at hm
  rw [mem_layout]
  rcases hm with (hm | hm) | hm
  · obtain ⟨e, -, he⟩ := List.mem_filterMap.mp hm
    cases e <;> cases he
    exact absurd rfl hu
  · obtain ⟨n, hn, rfl⟩ := List.mem_map.mp hm
    exact .inr (.inl (Ordered.mem_ofList.mpr (List.mem_append_left _ (List.mem_append_right _ hn))))
  · obtain ⟨p, hp, he⟩ := List.mem_filterMap.mp hm
    cases p with
    | var n s =>
        cases he
        refine .inr (.inl (Ordered.mem_ofList.mpr (List.mem_append_right _ ?_)))
        exact List.mem_filterMap.mpr ⟨_, hp, rfl⟩
    | discard s => cases he
    | index base x s =>
        cases he
        exact .inr (.inr (Ordered.mem_ofList.mpr (List.mem_filterMap.mpr ⟨_, hp, rfl⟩)))

/-- A body is lowered with every name that it binds or stores into in the layout. -/
theorem mention?_eq {c : Compile.Context} (hl : c.layout = Compile.layout d) {m : Mention String}
    (hm : m ∈ d.body.mentions) : c.mention? m = d.mention? m := by
  rw [Compile.Context.mention?, mention?, slot?, Compile.Context.slot, hl]
  by_cases hmem : m.what ∈ Compile.layout d
  · rw [if_neg fun h => h.2 hmem, if_pos hmem]
    rfl
  · have hread : m.use = .read := by_contra fun hu => hmem (mem_layout_of_mention hm hu)
    rw [if_pos ⟨hread, hmem⟩, if_neg hmem]
    rfl

end Definition

/-! ## Compiled functions -/

/-- The frame of the artifact has the slots of its definition, and its code mentions the slots of
the names that the body mentions. -/
structure Artifact.Allotted (a : Artifact) : Prop where
  slotCount : a.slotCount = (Compile.layout a.info.definition).length
  mentions : a.body.mentions =
    a.info.definition.body.mentions.filterMap a.info.definition.mention?

theorem Artifact.Allotted.framed {a : Artifact} (h : a.Allotted) : a.Framed where
  args := by
    obtain ⟨more, he, -⟩ := Compile.layout_eq a.info.definition
    rw [h.slotCount, he, List.length_append, List.length_map]
    exact Nat.le_add_right ..
  slots m hm := by
    rw [h.mentions] at hm
    obtain ⟨n, -, hn⟩ := List.mem_filterMap.mp hm
    obtain ⟨i, hi, rfl⟩ := Option.map_eq_some_iff.mp hn
    rw [h.slotCount]
    exact Definition.slot?_lt hi

namespace Linker

/-- A name is bound to the artifact. -/
def Binds (env : Linker) (a : Artifact) : Prop :=
  ∃ home name, env.lookup home name = some (.callable (.artifact a))

/-- The frame of the artifact has the slots of its definition, and so has that of every artifact
that is linked into it and is not one that a name was bound to. -/
inductive Makes (env : Linker) : Artifact → Prop
  | intro {a : Artifact} : a.Allotted →
      (∀ b, Target.artifact b ∈ a.body.targets → ¬ env.Binds b → Makes env b) → Makes env a

end Linker

namespace Compile

variable {env : Linker} {callee : Function → Compile Artifact} {f g : Function}

/-- A unit has the slots of its definition, and what is linked into it was found under a name or made
of a function that was. -/
theorem compileUnit_allots {inv : State → Prop} {linked : Artifact → Prop}
    (bound : ∀ name a, env.lookup f.home name = some (.callable (.artifact a)) → linked a)
    (hcallee : ∀ name c g, env.lookup f.home name = some (.callable c) → c.plain? = some g →
      Ensures inv (callee g) linked)
    (hinv : ∀ st n, inv st → inv { st with nextId := n }) :
    Ensures inv (compileUnit env callee f) fun a =>
      a.Allotted ∧ ∀ b, Target.artifact b ∈ a.body.targets → linked b := by
  have hnative : ∀ n a, Target.native n = .artifact a → linked a := by
    intro n a ha
    cases ha
  have htarget : ∀ p span, Lower.Ensures inv (target (.ofFunction env callee f) p span) fun t =>
      ∀ a, t = .artifact a → linked a := by
    intro p span
    rw [target]
    cases p.single? with
    | none => exact (Lower.Ensures.ofOutcome _).bind fun n _ => .pure (hnative n)
    | some name =>
        have hlink : Ensures inv (linkName env callee f name span) fun t =>
            ∀ a, t = .artifact a → linked a :=
          linkName_ensures (fun _ n _ => hnative n) (fun n _ => hnative n)
            (fun a hl b hb => by
              cases hb
              exact bound name a hl)
            (fun c g hl hg => (hcallee name c g hl hg).mono fun a ha b hb => by
              cases hb
              exact ha) span
        exact (Lower.Ensures.lift hlink).bind fun t ht =>
          (Lower.Ensures.record _ _).bind fun _ _ => .pure ht
  have hbody := f.definition.body.lower_allots htarget
  intro st a st' h hi
  obtain ⟨-, steps, callees, st₁, hl, rfl, rfl⟩ := compileUnit_eq_ok h
  obtain ⟨hi₁, hallots⟩ := hbody [] st steps callees st₁ hl hi
  refine ⟨hinv _ _ hi₁, ⟨rfl, hallots.slots.trans ?_⟩, hallots.linked⟩
  exact List.filterMap_congr fun m hm => Definition.mention?_eq rfl hm

theorem compileUnit_makes {inv : State → Prop} (hcallee : ∀ g, Ensures inv (callee g) env.Makes)
    (hinv : ∀ st n, inv st → inv { st with nextId := n }) :
    Ensures inv (compileUnit env callee f) env.Makes := by
  have hallots : Ensures inv (compileUnit env callee f) fun a => a.Allotted ∧
      ∀ b, Target.artifact b ∈ a.body.targets → ¬ env.Binds b → env.Makes b :=
    compileUnit_allots (fun name a hl hfree => absurd ⟨_, _, hl⟩ hfree)
      (fun _ _ g _ _ => (hcallee g).mono fun a ha _ => ha) hinv
  exact hallots.mono fun a ha => .intro ha.1 ha.2

theorem function_makes (fuel : Nat) (active : List (Nat × String)) (g : Function) :
    Ensures (Retains fun _ => env.Makes) (function env fuel active g) env.Makes :=
  function_retains
    (fun _ _ _ _ hcallee => compileUnit_makes (fun g => hcallee g trivial) fun _ _ hst => hst)
    fuel active g trivial

end Compile

/-- An artifact, what is linked into it, and so on. -/
inductive Artifact.Involves (a : Artifact) : Artifact → Prop
  | refl : Involves a a
  | linked {b c : Artifact} : Involves a b → Target.artifact c ∈ b.body.targets → Involves a c

namespace Linker

variable {env : Linker} {f : Function} {a b : Artifact} {nextId n : Nat}

theorem compile_makes (h : env.compile nextId f = .ok (a, n)) : env.Makes a := by
  obtain ⟨st, hst, -⟩ := function_of_compile h
  exact (Compile.function_makes _ _ f _ _ _ hst fun _ hm => absurd hm List.not_mem_nil).2

/-- What an artifact involves was made with it, or comes from an artifact that was there. -/
theorem Makes.involves (h : env.Makes a) (hb : a.Involves b) :
    env.Makes b ∨ ∃ e, env.Binds e ∧ e.Involves b := by
  induction hb with
  | refl => exact .inl h
  | @linked b c _ hc ih =>
      rcases ih with hb | ⟨e, he, hb⟩
      · cases hb with
        | intro _ hlinked =>
            by_cases hbound : env.Binds c
            · exact .inr ⟨c, hbound, .refl⟩
            · exact .inl (hlinked c hc hbound)
      · exact .inr ⟨e, he, hb.linked hc⟩

/-- A compiled function has a frame for its calls. Parameters have the first slots in their order,
no two names share a slot, and the names with a slot are those that the definition binds or stores
into. The code mentions, in order, the slots of the names that the body mentions, and all of them
are in the frame, so a call that is guarded makes every access inside. The same holds of the calls
that it leads to, except those of artifacts that were there before. -/
theorem compile_frames (distinct : (f.definition.params.map Ident.text).Nodup)
    (h : env.compile nextId f = .ok (a, n)) :
    (∀ (i : Nat) (hi : i < f.definition.params.length),
      f.definition.slot? f.definition.params[i].text = some i) ∧
    (∀ m m' i, f.definition.slot? m = some i → f.definition.slot? m' = some i → m = m') ∧
    (∀ m, (f.definition.slot? m).isSome ↔
      m ∈ f.definition.boundNames ∨ m ∈ f.definition.storedArrays) ∧
    a.body.mentions = f.definition.body.mentions.filterMap f.definition.mention? ∧
    (∀ m ∈ a.body.mentions, m.what < a.slotCount) ∧
    (∀ fuel args, a.guarded fuel args = (a.call fuel args).map .ok) ∧
    ∀ b, a.Involves b → (∀ fuel args, b.guarded fuel args = (b.call fuel args).map .ok) ∨
      ∃ e, env.Binds e ∧ e.Involves b := by
  have hmade := compile_makes h
  obtain ⟨hdefinition, -⟩ := compile_eq_ok h
  have hallotted : a.Allotted := by
    cases hmade with
    | intro hallotted _ => exact hallotted
  refine ⟨fun i hi => Definition.slot?_param distinct hi, fun m m' i => Definition.slot?_inj,
    fun m => Definition.isSome_slot?, hdefinition ▸ hallotted.mentions, hallotted.framed.slots,
    hallotted.framed.guarded_eq, fun b hb => (hmade.involves hb).imp_left fun hb => ?_⟩
  cases hb with
  | intro hallotted _ => exact hallotted.framed.guarded_eq

/-- The function `fn fill(xs, n) { xs[0] = k; for k in 0..n { xs[k] = n } }` of namespace 1. -/
def fill : Function :=
  let place (i : Expr) : Place := .index ⟨"xs", .dummy⟩ i .dummy
  .build 3
    { markers := [], name := ⟨"fill", .dummy⟩, params := [⟨"xs", .dummy⟩, ⟨"n", .dummy⟩],
      body := .mk
        [.assign (place (.num 0 .dummy)) (.var "k" .dummy) .dummy,
          .forRange ⟨"k", .dummy⟩ (.num 0 .dummy) (.var "n" .dummy)
            (.mk [.assign (place (.var "k" .dummy)) (.var "n" .dummy) .dummy] none .dummy) .dummy]
        none .dummy }
    .interactive 1 []

/-- A counter has its slot also where it is read before it is bound. -/
theorem compile_frames_fill :
    ∃ a n, Function.negationWorld.linker.compile 4 fill = .ok (a, n) ∧
      a.body.mentions =
        [⟨.read, 2⟩, ⟨.stored, 0⟩, ⟨.bound, 2⟩, ⟨.read, 1⟩, ⟨.read, 1⟩, ⟨.stored, 0⟩,
          ⟨.read, 2⟩] ∧
      (∀ m ∈ a.body.mentions, m.what < a.slotCount) ∧
      ∀ fuel args, a.guarded fuel args = (a.call fuel args).map .ok := by
  have hok : (Function.negationWorld.linker.compile 4 fill).isOk = true := by decide +kernel
  have hmentions : fill.definition.body.mentions.filterMap fill.definition.mention? =
      [⟨.read, 2⟩, ⟨.stored, 0⟩, ⟨.bound, 2⟩, ⟨.read, 1⟩, ⟨.read, 1⟩, ⟨.stored, 0⟩,
        ⟨.read, 2⟩] := by
    decide
  rcases h : Function.negationWorld.linker.compile 4 fill with e | ⟨a, n⟩
  · rw [h] at hok
    cases hok
  · obtain ⟨-, -, -, hslots, hinside, hguarded, -⟩ := compile_frames (by decide) h
    exact ⟨a, n, rfl, hslots.trans hmentions, hinside, hguarded⟩

end Linker

end Graft
