import Graft.CallGraph
import Mathlib.Data.Fintype.Card
import Mathlib.Logic.Relation

/-!
# Components and cycles

The search visits each node once, along the edges, and finds the strongly connected components: the
nodes of a component reach each other, and an edge leads into its own component or into one that was
complete before. So the search finds a component that can reach itself exactly if there is a cycle.
-/

namespace Graft.CallGraph

/-- There is an edge from `v` to `u`. -/
abbrev Edge (successors : Nat → List Nat) (v u : Nat) : Prop := u ∈ successors v

/-- There is a path from `v` to `u`, which may be empty. -/
abbrev Path (successors : Nat → List Nat) : Nat → Nat → Prop :=
  Relation.ReflTransGen (Edge successors)

namespace Search

variable {successors : Nat → List Nat} {n t u v : Nat} {path : List Nat} {s s₀ s₁ : Search}

/-! ## Marks -/

theorem lt_of_mark_ne (h : s.mark v ≠ .closed) : v < s.marks.length := by
  by_contra hle
  refine h ?_
  rw [mark, List.getD_eq_getElem?_getD, List.getElem?_eq_none (Nat.not_lt.mp hle), Option.getD_none]

theorem ne_unseen_of_seen {i : Nat} (h : s.mark v = .seen i) : s.mark v ≠ .unseen := by
  rw [h]
  exact Mark.noConfusion

theorem ne_unseen_of_closed (h : s.mark v = .closed) : s.mark v ≠ .unseen := by
  rw [h]
  exact Mark.noConfusion

theorem lt_of_seen {i : Nat} (h : s.mark v = .seen i) : v < s.marks.length := by
  apply lt_of_mark_ne
  rw [h]
  exact Mark.noConfusion

theorem ne_of_seen {i : Nat} (h : s.mark v = .seen i) (hu : s.mark u = .unseen) : v ≠ u := by
  rintro rfl
  exact ne_unseen_of_seen h hu

theorem mark_setMark (hv : v < s.marks.length) (m : Mark) (u : Nat) :
    (s.setMark v m).mark u = if u = v then m else s.mark u := by
  rw [mark, setMark, mark, List.getD_eq_getElem?_getD, List.getElem?_set, List.getD_eq_getElem?_getD]
  by_cases hu : u = v
  · rw [if_pos hu.symm, if_pos hu, if_pos (hu ▸ hv), Option.getD_some]
  · rw [if_neg (Ne.symm hu), if_neg hu]

theorem mark_closeAll (component : List Nat) (s : Search) (u : Nat) :
    (component.foldl (fun s u => s.setMark u .closed) s).mark u =
      if u ∈ component then .closed else s.mark u := by
  induction component generalizing s with
  | nil => rfl
  | cons v rest ih =>
      rw [List.foldl_cons, ih]
      by_cases hu : u ∈ rest
      · rw [if_pos hu, if_pos (List.mem_cons_of_mem v hu)]
      · rw [if_neg hu]
        by_cases hv : v < s.marks.length
        · rw [mark_setMark hv]
          simp [hu]
        · have hout : ∀ m, (s.setMark v m).mark u = s.mark u := by
            intro m
            rw [mark, setMark, List.set_eq_of_length_le (Nat.not_lt.mp hv), mark]
          rw [hout]
          by_cases huv : u = v
          · subst huv
            rw [if_pos List.mem_cons_self]
            by_contra hne
            exact hv (lt_of_mark_ne hne)
          · rw [if_neg (by simp [huv, hu])]

/-- Nothing but marks changes. -/
theorem closeAll_eq (component : List Nat) (s : Search) :
    ∃ marks, marks.length = s.marks.length ∧
      component.foldl (fun s u => s.setMark u .closed) s = { s with marks } := by
  induction component generalizing s with
  | nil => exact ⟨s.marks, rfl, rfl⟩
  | cons v rest ih =>
      obtain ⟨marks, hlength, h⟩ := ih (s.setMark v .closed)
      exact ⟨marks, hlength.trans (List.length_set ..), h⟩

/-! ## What holds during a search -/

/-- The components from the latest to the first: an edge leads into the same or an earlier one. -/
def Chained (successors : Nat → List Nat) : List (List Nat) → Prop
  | [] => True
  | c :: rest =>
    (∀ v ∈ c, ∀ u ∈ successors v, u ∈ c ∨ u ∈ rest.flatten) ∧ Chained successors rest

/-- Trees below edges out of `v`, each node in front of what was found behind it. -/
inductive Forest (successors : Nat → List Nat) : Nat → List Nat → Prop
  | nil (v : Nat) : Forest successors v []
  | cons {v u : Nat} {newer new : List Nat} : u ∈ successors v → Forest successors u newer →
      Forest successors v new → Forest successors v ((u :: newer) ++ new)

/-- The nodes and the root of a component reach each other. -/
structure Strong (successors : Nat → List Nat) (root : Nat) (members : List Nat) : Prop where
  distinct : root ∉ members
  below : ∀ m ∈ members, Path successors root m
  back : ∀ m ∈ members, Path successors m root
  forest : Forest successors root members

/-- What holds while the search is on a path through a graph of `n` nodes. -/
structure Inv (successors : Nat → List Nat) (n : Nat) (path : List Nat) (s : Search) : Prop where
  size : s.marks.length = n
  closed : ∀ v < n, s.mark v = .closed ↔ v ∈ s.components.flatten
  clock : ∀ {v i}, s.mark v = .seen i → i < s.clock
  seen : ∀ {v i}, s.mark v = .seen i → v ∈ path ∨ v ∈ s.stack
  waiting : ∀ {v}, v ∈ path ∨ v ∈ s.stack → ∃ i, s.mark v = .seen i
  chained : Chained successors s.components
  strong : ∀ c ∈ s.components, ∃ root members, c = root :: members ∧ Strong successors root members
  apart : s.components.flatten.Nodup

/-- The node reaches one that is seen in `s` with a time no later than `i`. -/
def Older (successors : Nat → List Nat) (s : Search) (v i : Nat) : Prop :=
  ∃ z j, Path successors v z ∧ s.mark z = .seen j ∧ j ≤ i

theorem Older.of_path (h : Older successors s u t) (hv : Path successors v u) {i : Nat}
    (hi : t ≤ i) : Older successors s v i := by
  obtain ⟨z, j, hz, hj, hle⟩ := h
  exact ⟨z, j, hv.trans hz, hj, Nat.le_trans hle hi⟩

/-- What was pushed since `s₀`, when `v` was met: these nodes are behind `v`, their edges lead to closed
nodes, to each other, to `v`, or to nodes seen before, and their times tell how far back they reach. -/
structure Pending (successors : Nat → List Nat) (s₀ s : Search) (v : Nat) (new : List Nat) : Prop where
  stack : s.stack = new ++ s₀.stack
  frame : ∀ u, u ≠ v → s₀.mark u ≠ .unseen → s.mark u = s₀.mark u
  unseen : ∀ m ∈ new, s₀.mark m = .unseen
  below : ∀ m ∈ new, Path successors v m
  back : ∀ m ∈ new, ∀ i, s.mark m = .seen i →
    Older successors s₀ m i ∨ s₀.clock ≤ i ∧ Path successors m v
  out : ∀ m ∈ new, ∀ i, s.mark m = .seen i → ∀ u ∈ successors m,
    s.mark u = .closed ∨ u ∈ new ∨ u = v ∨ ∃ j, s₀.mark u = .seen j ∧ i ≤ j
  distinct : new.Nodup

/-- What a visit of `v` leaves: `v` is closed, or it is pushed above all that it left, since it reaches
further back. -/
structure Visited (successors : Nat → List Nat) (s₀ s : Search) (v : Nat) (new : List Nat) : Prop
    extends Pending successors s₀ s v new where
  clock : s₀.clock ≤ s.clock
  closed : new = [] → s.mark v = .closed
  root : new ≠ [] → v ∈ new ∧ ∃ i, s.mark v = .seen i ∧ i < s₀.clock ∧ Older successors s₀ v i ∧
    ∀ m ∈ new, ∀ j, s.mark m = .seen j → i ≤ j
  forest : new = [] ∨ ∃ rest, new = v :: rest ∧ Forest successors v rest

/-- What holds while the edges out of `v` are followed. The node was met at the time `s₀.clock`, and the
earliest time that it is known to reach back to is `k`. -/
structure Following (successors : Nat → List Nat) (s₀ s : Search) (v : Nat) (new : List Nat)
    (isRoot : Bool) (k : Nat) : Prop extends Pending successors s₀ s v new where
  clock : s₀.clock < s.clock
  off : v ∉ new
  mark : s.mark v = .seen k
  rooted : isRoot = true → k = s₀.clock
  lowered : isRoot = false → k < s₀.clock ∧ Older successors s₀ v k
  forest : Forest successors v new

/-- The time `k` is no later than those of the pushed nodes and of what the edges to `done` lead to. -/
structure Low (s₀ s : Search) (v : Nat) (new done : List Nat) (k : Nat) : Prop where
  least : ∀ m ∈ new, ∀ i, s.mark m = .seen i → k ≤ i
  done : ∀ u ∈ done, s.mark u = .closed ∨ u ∈ new ∨ u = v ∨ ∃ j, s₀.mark u = .seen j ∧ k ≤ j

theorem Visited.keeps {x : Nat} {new : List Nat} (h : Visited successors s s₁ u new)
    (hu : s.mark u = .unseen) (hx : s.mark x ≠ .unseen) : s₁.mark x = s.mark x :=
  h.frame x (fun he => hx (he ▸ hu)) hx

namespace Following

variable {new newer done : List Nat} {isRoot : Bool} {i k : Nat}

/-- The pushed nodes are seen. -/
theorem seen_new (h : Following successors s₀ s v new isRoot k)
    (hs : Inv successors n (v :: path) s) {m : Nat} (hm : m ∈ new) : ∃ i, s.mark m = .seen i := by
  apply hs.waiting
  right
  rw [h.stack]
  exact List.mem_append_left _ hm

theorem lt_size (h : Following successors s₀ s v new isRoot k) : v < s.marks.length :=
  lt_of_seen h.mark

theorem le_clock (h : Following successors s₀ s v new isRoot k) : k ≤ s₀.clock := by
  cases isRoot with
  | true => exact Nat.le_of_eq (h.rooted rfl)
  | false => exact Nat.le_of_lt (h.lowered rfl).1

/-! ## Following edges -/

/-- A node that is seen while the edges out of `v` are followed is `v`, was pushed since, or was seen
before. -/
theorem seen_cases (h : Following successors s₀ s v new isRoot k)
    (hs₀ : Inv successors n path s₀) (hs : Inv successors n (v :: path) s)
    (hu : s.mark u = .seen i) : u = v ∨ u ∈ new ∨ s₀.mark u = .seen i := by
  by_cases huv : u = v
  · exact .inl huv
  · have hold : u ∈ path ∨ u ∈ s₀.stack → s₀.mark u = .seen i := by
      intro hu'
      obtain ⟨j, hj⟩ := hs₀.waiting hu'
      rw [← h.frame u huv (ne_unseen_of_seen hj), hu]
    rcases hs.seen hu with hpath | hstack
    · rcases List.mem_cons.mp hpath with rfl | hpath
      · exact absurd rfl huv
      · exact .inr (.inr (hold (.inl hpath)))
    · rw [h.stack] at hstack
      rcases List.mem_append.mp hstack with hnew | hstack
      · exact .inr (.inl hnew)
      · exact .inr (.inr (hold (.inr hstack)))

/-- How far back a node that is seen while the edges out of `v` are followed reaches. -/
theorem back_seen (h : Following successors s₀ s v new isRoot k)
    (hs₀ : Inv successors n path s₀) (hs : Inv successors n (v :: path) s)
    (hu : s.mark u = .seen i) :
    Older successors s₀ u i ∨ s₀.clock ≤ i ∧ Path successors u v := by
  rcases h.seen_cases hs₀ hs hu with rfl | hnew | hold
  · obtain rfl : k = i := Mark.seen.inj (h.mark.symm.trans hu)
    cases isRoot with
    | true => exact .inr ⟨Nat.le_of_eq (h.rooted rfl).symm, .refl⟩
    | false => exact .inl (h.lowered rfl).2
  · exact h.back u hnew i hu
  · exact .inl ⟨u, i, .refl, hold, Nat.le_refl i⟩

/-- A successor is visited: what it leaves is pushed as well. -/
theorem visit (h : Following successors s₀ s v new isRoot k) (hs₀ : Inv successors n path s₀)
    (hs : Inv successors n (v :: path) s) (hedge : u ∈ successors v) (hu : s.mark u = .unseen)
    (hv : Visited successors s s₁ u newer) :
    Following successors s₀ s₁ v (newer ++ new) isRoot k := by
  have hkept : ∀ {x i}, s.mark x = .seen i → s₁.mark x = .seen i := fun hx =>
    (hv.keeps hu (ne_unseen_of_seen hx)).trans hx
  refine ⟨⟨?_, fun x hx hold => ?_, fun m hm => ?_, fun m hm => ?_, fun m hm i hi => ?_,
    fun m hm i hi y hy => ?_, ?_⟩, Nat.lt_of_lt_of_le h.clock hv.clock, fun hmem => ?_, hkept h.mark,
    h.rooted, h.lowered, ?_⟩
  · rw [hv.stack, h.stack, List.append_assoc]
  · have hx' := h.frame x hx hold
    rw [← hx'] at hold ⊢
    exact hv.keeps hu hold
  · rcases List.mem_append.mp hm with hm | hm
    · by_contra hold
      by_cases hmv : m = v
      · exact ne_of_seen h.mark (hv.unseen m hm) hmv.symm
      · exact hold ((h.frame m hmv hold).symm.trans (hv.unseen m hm))
    · exact h.unseen m hm
  · rcases List.mem_append.mp hm with hm | hm
    · exact .head hedge (hv.below m hm)
    · exact h.below m hm
  · rcases List.mem_append.mp hm with hm | hm
    · -- The nodes that the successor left reach back to nodes that were seen when it was met.
      have hseen : ∀ {x t}, Older successors s x t →
          Older successors s₀ x t ∨ s₀.clock ≤ t ∧ Path successors x v := by
        rintro x t ⟨z, j, hz, hj, hle⟩
        rcases h.back_seen hs₀ hs hj with hz' | ⟨hj', hz'⟩
        · exact .inl (hz'.of_path hz hle)
        · exact .inr ⟨Nat.le_trans hj' hle, hz.trans hz'⟩
      rcases hv.back m hm i hi with hold | ⟨hi', hpath⟩
      · exact hseen hold
      · obtain ⟨-, t, -, ht, hold, -⟩ := hv.root (List.ne_nil_of_mem hm)
        rcases hseen hold with hold | ⟨-, hback⟩
        · exact .inl (hold.of_path hpath (Nat.le_of_lt (Nat.lt_of_lt_of_le ht hi')))
        · exact .inr ⟨Nat.le_trans (Nat.le_of_lt h.clock) hi', hpath.trans hback⟩
    · obtain ⟨j, hj⟩ := h.seen_new hs hm
      obtain rfl : j = i := Mark.seen.inj ((hkept hj).symm.trans hi)
      exact h.back m hm j hj
  · rcases List.mem_append.mp hm with hm | hm
    · rcases hv.out m hm i hi y hy with hclosed | hy' | rfl | ⟨j, hj, hle⟩
      · exact .inl hclosed
      · exact .inr (.inl (List.mem_append_left _ hy'))
      · exact .inr (.inl (List.mem_append_left _ (hv.root (List.ne_nil_of_mem hm)).1))
      · rcases h.seen_cases hs₀ hs hj with rfl | hy' | hold
        · exact .inr (.inr (.inl rfl))
        · exact .inr (.inl (List.mem_append_right _ hy'))
        · exact .inr (.inr (.inr ⟨j, hold, hle⟩))
    · obtain ⟨j, hj⟩ := h.seen_new hs hm
      obtain rfl : j = i := Mark.seen.inj ((hkept hj).symm.trans hi)
      rcases h.out m hm j hj y hy with hclosed | hy' | rfl | hold
      · exact .inl ((hv.keeps hu (ne_unseen_of_closed hclosed)).trans hclosed)
      · exact .inr (.inl (List.mem_append_right _ hy'))
      · exact .inr (.inr (.inl rfl))
      · exact .inr (.inr (.inr hold))
  · refine hv.distinct.append h.distinct fun m hm hm' => ?_
    obtain ⟨i, hi⟩ := h.seen_new hs hm'
    exact ne_of_seen hi (hv.unseen m hm) rfl
  · rcases List.mem_append.mp hmem with hmem | hmem
    · exact ne_of_seen h.mark (hv.unseen v hmem) rfl
    · exact h.off hmem
  · rcases hv.forest with rfl | ⟨rest, rfl, hrest⟩
    · exact h.forest
    · exact .cons hedge hrest h.forest

/-- An earlier time is taken over. -/
theorem setMark (h : Following successors s₀ s v new isRoot k) (hi : i < s₀.clock)
    (hold : Older successors s₀ v i) :
    Following successors s₀ (s.setMark v (.seen i)) v new false i := by
  have hother : ∀ x, x ≠ v → (s.setMark v (.seen i)).mark x = s.mark x := fun x hx => by
    rw [mark_setMark h.lt_size, if_neg hx]
  have hnew : ∀ m ∈ new, (s.setMark v (.seen i)).mark m = s.mark m := fun m hm =>
    hother m fun hmv => h.off (hmv ▸ hm)
  refine ⟨⟨h.stack, fun x hx hs => (hother x hx).trans (h.frame x hx hs), h.unseen, h.below,
    fun m hm j hj => ?_, fun m hm j hj y hy => ?_, h.distinct⟩, h.clock, h.off, ?_, (nomatch ·),
    fun _ => ⟨hi, hold⟩, h.forest⟩
  · rw [hnew m hm] at hj
    exact h.back m hm j hj
  · rw [hnew m hm] at hj
    by_cases hyv : y = v
    · exact .inr (.inr (.inl hyv))
    · rw [hother y hyv]
      exact h.out m hm j hj y hy
  · rw [mark_setMark h.lt_size, if_pos rfl]

end Following

theorem Inv.setMark (hs : Inv successors n path s) {i k : Nat} (hv : s.mark v = .seen k)
    (hi : i ≤ k) : Inv successors n path (s.setMark v (.seen i)) := by
  have hmark := mark_setMark (s := s) (lt_of_seen hv) (.seen i)
  refine ⟨(List.length_set ..).trans hs.size, fun x hx => ?_, fun {x j} hx => ?_, fun {x j} hx => ?_,
    fun {x} hx => ?_, hs.chained, hs.strong, hs.apart⟩
  · rw [hmark]
    by_cases hxv : x = v
    · subst hxv
      rw [if_pos rfl]
      exact ⟨(nomatch ·), fun h => absurd ((hs.closed x hx).mpr h) (by rw [hv]; exact Mark.noConfusion)⟩
    · rw [if_neg hxv]
      exact hs.closed x hx
  · rw [hmark] at hx
    split at hx
    · cases hx
      exact Nat.lt_of_le_of_lt hi (hs.clock hv)
    · exact hs.clock hx
  · rw [hmark] at hx
    split at hx
    · next hxv =>
        subst hxv
        exact hs.seen hv
    · exact hs.seen hx
  · rw [hmark]
    split
    · exact ⟨i, rfl⟩
    · exact hs.waiting hx

theorem lower_eq {k : Nat} (hv : s.mark v = .seen k) :
    s.lower v u = match s.mark u with
      | .seen i => if i < k then (true, s.setMark v (.seen i)) else (false, s)
      | _ => (false, s) := by
  rw [lower, hv]
  cases s.mark u <;> rfl

/-- What a visit of an unseen node does, if the nodes of the path wait. -/
def Visits (successors : Nat → List Nat) (n : Nat) (path : List Nat)
    (visit : Nat → Search → Search) : Prop :=
  ∀ u s, u < n → Inv successors n path s → s.mark u = .unseen →
    Inv successors n path (visit u s) ∧ ∃ new, Visited successors s (visit u s) u new

/-- As `Low` before the time is lowered: what the edge to `u` led to may have an earlier time, but none
that is earlier than the time of `u`. -/
structure Nearly (s₀ s : Search) (v u : Nat) (new done : List Nat) (k : Nat) : Prop where
  least : ∀ m ∈ new, ∀ i, s.mark m = .seen i → k ≤ i ∨ ∃ j, s.mark u = .seen j ∧ j ≤ i
  done : ∀ x ∈ u :: done, s.mark x = .closed ∨ x ∈ new ∨ x = v ∨
    ∃ j, s₀.mark x = .seen j ∧ (k ≤ j ∨ x = u ∧ s.mark u = .seen j)

section

variable {new newer done : List Nat} {isRoot : Bool} {i k : Nat}

/-- The edge leads to a node that is visited. -/
theorem Low.visit (hlow : Low s₀ s v new done k) (hs : Inv successors n (v :: path) s)
    (h : Following successors s₀ s v new isRoot k) (hu : s.mark u = .unseen)
    (hv : Visited successors s s₁ u newer) : Nearly s₀ s₁ v u (newer ++ new) done k := by
  constructor
  · intro m hm i hi
    rcases List.mem_append.mp hm with hm | hm
    · obtain ⟨-, j, hj, -, -, hmin⟩ := hv.root (List.ne_nil_of_mem hm)
      exact .inr ⟨j, hj, hmin m hm i hi⟩
    · obtain ⟨j, hj⟩ := h.seen_new hs hm
      have hkept := hv.keeps hu (ne_unseen_of_seen hj)
      obtain rfl : j = i := Mark.seen.inj (hj.symm.trans (hkept.symm.trans hi))
      exact .inl (hlow.least m hm j hj)
  · intro x hx
    rcases List.mem_cons.mp hx with rfl | hx
    · by_cases hnil : newer = []
      · exact .inl (hv.closed hnil)
      · exact .inr (.inl (List.mem_append_left _ (hv.root hnil).1))
    · rcases hlow.done x hx with hclosed | hx | hx | ⟨j, hj, hle⟩
      · exact .inl ((hv.keeps hu (ne_unseen_of_closed hclosed)).trans hclosed)
      · exact .inr (.inl (List.mem_append_right _ hx))
      · exact .inr (.inr (.inl hx))
      · exact .inr (.inr (.inr ⟨j, hj, .inl hle⟩))

/-- The edge leads to a node that was met before. -/
theorem Low.pass (hlow : Low s₀ s v new done k) (hs₀ : Inv successors n path s₀)
    (hs : Inv successors n (v :: path) s) (h : Following successors s₀ s v new isRoot k)
    (hu : s.mark u ≠ .unseen) : Nearly s₀ s v u new done k := by
  constructor
  · exact fun m hm i hi => .inl (hlow.least m hm i hi)
  · intro x hx
    rcases List.mem_cons.mp hx with rfl | hx
    · cases hmark : s.mark x with
      | unseen => exact absurd hmark hu
      | closed => exact .inl rfl
      | seen i =>
          rcases h.seen_cases hs₀ hs hmark with hx | hx | hx
          · exact .inr (.inr (.inl hx))
          · exact .inr (.inl hx)
          · exact .inr (.inr (.inr ⟨i, hx, .inr ⟨rfl, rfl⟩⟩))
    · rcases hlow.done x hx with hclosed | hx | hx | ⟨j, hj, hle⟩
      · exact .inl hclosed
      · exact .inr (.inl hx)
      · exact .inr (.inr (.inl hx))
      · exact .inr (.inr (.inr ⟨j, hj, .inl hle⟩))

theorem Nearly.earlier (hn : Nearly s₀ s v u new done k)
    (h : Following successors s₀ s v new isRoot k) (hu : s.mark u = .seen i) (hi : i < k) :
    Low s₀ (s.setMark v (.seen i)) v new (u :: done) i := by
  constructor
  · intro m hm j hj
    have hmv : m ≠ v := fun he => h.off (he ▸ hm)
    rw [mark_setMark h.lt_size, if_neg hmv] at hj
    rcases hn.least m hm j hj with hle | ⟨l, hl, hle⟩
    · omega
    · rw [hu] at hl
      cases hl
      exact hle
  · intro x hx
    by_cases hxv : x = v
    · exact .inr (.inr (.inl hxv))
    · rw [mark_setMark h.lt_size, if_neg hxv]
      rcases hn.done x hx with hclosed | hx | hx | ⟨j, hj, hle | ⟨rfl, hj'⟩⟩
      · exact .inl hclosed
      · exact .inr (.inl hx)
      · exact .inr (.inr (.inl hx))
      · exact .inr (.inr (.inr ⟨j, hj, by omega⟩))
      · rw [hu] at hj'
        cases hj'
        exact .inr (.inr (.inr ⟨i, hj, Nat.le_refl i⟩))

theorem Nearly.later (hn : Nearly s₀ s v u new done k)
    (hu : ∀ {j}, s.mark u = .seen j → k ≤ j) : Low s₀ s v new (u :: done) k := by
  constructor
  · intro m hm i hi
    rcases hn.least m hm i hi with hki | ⟨j, hj, hji⟩
    · exact hki
    · exact Nat.le_trans (hu hj) hji
  · intro x hx
    rcases hn.done x hx with hclosed | hx | hx | ⟨j, hj, hkj | ⟨rfl, hj'⟩⟩
    · exact .inl hclosed
    · exact .inr (.inl hx)
    · exact .inr (.inr (.inl hx))
    · exact .inr (.inr (.inr ⟨j, hj, hkj⟩))
    · exact .inr (.inr (.inr ⟨j, hj, hu hj'⟩))

/-- The time is lowered after an edge was followed. -/
theorem Nearly.lower (hn : Nearly s₀ s v u new done k) (hs₀ : Inv successors n path s₀)
    (hs : Inv successors n (v :: path) s) (h : Following successors s₀ s v new isRoot k)
    (hedge : u ∈ successors v) :
    ∃ k, Inv successors n (v :: path) (s.lower v u).2 ∧
      Following successors s₀ (s.lower v u).2 v new (isRoot && !(s.lower v u).1) k ∧
      Low s₀ (s.lower v u).2 v new (u :: done) k := by
  by_cases hearlier : ∃ i, s.mark u = .seen i ∧ i < k
  · obtain ⟨i, hi, hik⟩ := hearlier
    have hlower : s.lower v u = (true, s.setMark v (.seen i)) := by
      rw [lower_eq h.mark, hi]
      exact if_pos hik
    have hclock := Nat.lt_of_lt_of_le hik h.le_clock
    have hold : Older successors s₀ v i := by
      rcases h.back_seen hs₀ hs hi with hold | ⟨hle, -⟩
      · exact hold.of_path (.single hedge) (Nat.le_refl i)
      · omega
    rw [hlower, Bool.not_true, Bool.and_false]
    exact ⟨i, hs.setMark h.mark (Nat.le_of_lt hik), h.setMark hclock hold, hn.earlier h hi hik⟩
  · have hlower : s.lower v u = (false, s) := by
      rw [lower_eq h.mark]
      split
      · next i hi => exact if_neg fun hik => hearlier ⟨i, hi, hik⟩
      · rfl
    rw [hlower, Bool.not_false, Bool.and_true]
    exact ⟨k, hs, h, hn.later fun {j} hj => Nat.not_lt.mp fun hlt => hearlier ⟨j, hj, hlt⟩⟩

end

/-- One edge is followed. -/
theorem follow_step {visit : Nat → Search → Search} (hvisit : Visits successors n (v :: path) visit)
    {new done : List Nat} {isRoot : Bool} {k : Nat} (hs₀ : Inv successors n path s₀)
    (hs : Inv successors n (v :: path) s) (h : Following successors s₀ s v new isRoot k)
    (hlow : Low s₀ s v new done k) (hedge : u ∈ successors v) (hu : u < n) :
    let t := if s.mark u = .unseen then visit u s else s
    ∃ new k, Inv successors n (v :: path) (t.lower v u).2 ∧
      Following successors s₀ (t.lower v u).2 v new (isRoot && !(t.lower v u).1) k ∧
      Low s₀ (t.lower v u).2 v new (u :: done) k := by
  intro t
  by_cases hunseen : s.mark u = .unseen
  · have ht : t = visit u s := if_pos hunseen
    obtain ⟨hinv, newer, hvisited⟩ := hvisit u s hu hs hunseen
    rw [ht]
    exact ⟨newer ++ new, (hlow.visit hs h hunseen hvisited).lower hs₀ hinv
      (h.visit hs₀ hs hedge hunseen hvisited) hedge⟩
  · have ht : t = s := if_neg hunseen
    rw [ht]
    exact ⟨new, (hlow.pass hs₀ hs h hunseen).lower hs₀ hs h hedge⟩

/-- All edges are followed. -/
theorem follow_spec {visit : Nat → Search → Search} (hvisit : Visits successors n (v :: path) visit)
    {new done rest : List Nat} {isRoot : Bool} {k : Nat} (hs₀ : Inv successors n path s₀)
    (hs : Inv successors n (v :: path) s) (h : Following successors s₀ s v new isRoot k)
    (hlow : Low s₀ s v new done k) (hrest : ∀ u ∈ rest, u ∈ successors v ∧ u < n) :
    ∃ new k, Inv successors n (v :: path) (follow visit v rest isRoot s).2 ∧
      Following successors s₀ (follow visit v rest isRoot s).2 v new
        (follow visit v rest isRoot s).1 k ∧
      Low s₀ (follow visit v rest isRoot s).2 v new (rest.reverse ++ done) k := by
  induction rest generalizing s new done isRoot k with
  | nil => exact ⟨new, k, hs, h, hlow⟩
  | cons u rest ih =>
      obtain ⟨hedge, hu⟩ := hrest u List.mem_cons_self
      obtain ⟨newer, j, hinv, hf, hlow'⟩ := follow_step hvisit hs₀ hs h hlow hedge hu
      rw [List.reverse_cons, List.append_assoc]
      exact ih hinv hf hlow' fun x hx => hrest x (List.mem_cons_of_mem u hx)

/-! ## Completing a component -/

/-- What is in completed components stays there along a path. -/
theorem Chained.mem_of_path {components : List (List Nat)} (h : Chained successors components)
    (hv : v ∈ components.flatten) (hpath : Path successors v u) : u ∈ components.flatten := by
  have hstep : ∀ {components}, Chained successors components → ∀ {x y}, x ∈ components.flatten →
      y ∈ successors x → y ∈ components.flatten := by
    intro components h x y hx hy
    induction components with
    | nil => exact absurd hx List.not_mem_nil
    | cons c rest ih =>
        rw [List.flatten_cons, List.mem_append] at hx ⊢
        rcases hx with hx | hx
        · exact h.1 x hx y hy
        · exact .inr (ih h.2 hx)
  induction hpath with
  | refl => exact hv
  | tail _ hedge ih => exact hstep h ih hedge

namespace Following

section

variable {new : List Nat} {k : Nat} (hs₀ : Inv successors n path s₀) (hv₀ : s₀.mark v = .unseen)
  (hs : Inv successors n (v :: path) s) (h : Following successors s₀ s v new true k)
  (hleast : ∀ m ∈ new, ∀ i, s.mark m = .seen i → k ≤ i)
  (hdone : ∀ u ∈ successors v, s.mark u = .closed ∨ u ∈ new ∨ u = v ∨
    ∃ j, s₀.mark u = .seen j ∧ k ≤ j)

include h hv₀ in
theorem not_mem_of_old (hu : s₀.mark u ≠ .unseen) : u ∉ v :: new := by
  intro hmem
  rcases List.mem_cons.mp hmem with rfl | hmem
  · exact hu hv₀
  · exact hu (h.unseen u hmem)

include hs₀ h in
/-- A node that was seen before has a time before that of a root. -/
theorem lt_of_old {j : Nat} (hj : s₀.mark u = .seen j) : ¬ k ≤ j := by
  obtain rfl := h.rooted rfl
  exact Nat.not_le.mpr (hs₀.clock hj)

include hs₀ hv₀ hs h hleast in
/-- Exactly the nodes pushed since a root was met belong to its component. -/
theorem takeWhile_belongs : s.stack.takeWhile (s.belongs k) = new := by
  have hbelongs : ∀ m ∈ new, s.belongs k m := by
    intro m hm
    obtain ⟨i, hi⟩ := h.seen_new hs hm
    rw [belongs, hi]
    exact decide_eq_true (hleast m hm i hi)
  rw [h.stack, List.takeWhile_append_of_pos hbelongs]
  cases hstack : s₀.stack with
  | nil => exact List.append_nil new
  | cons u rest =>
      obtain ⟨j, hj⟩ := hs₀.waiting (v := u) (.inr (by rw [hstack]; exact List.mem_cons_self))
      rw [List.takeWhile_cons_of_neg, List.append_nil]
      rw [belongs, h.frame u (ne_of_seen hj hv₀) (ne_unseen_of_seen hj), hj]
      exact fun hle => h.lt_of_old hs₀ hj (of_decide_eq_true hle)

include hs₀ hv₀ hs h hleast in
/-- A root completes its component. -/
theorem close_eq : ∃ marks, marks.length = s.marks.length ∧
    s.close v = { s with marks, stack := s₀.stack, components := (v :: new) :: s.components } ∧
    ∀ u, (s.close v).mark u = if u ∈ v :: new then .closed else s.mark u := by
  obtain ⟨marks, hlength, hmarks⟩ := closeAll_eq (v :: new) s
  have hclose : s.close v =
      { s with marks, stack := s₀.stack, components := (v :: new) :: s.components } := by
    rw [Search.close, h.mark]
    dsimp only
    rw [h.takeWhile_belongs hs₀ hv₀ hs hleast, hmarks, h.stack, List.drop_left]
  refine ⟨marks, hlength, hclose, fun u => ?_⟩
  rw [← mark_closeAll, hmarks, hclose]
  rfl

include hs₀ hs h hleast hdone in
/-- Edges out of the component of a root lead into it or into earlier ones. -/
theorem chained (hbound : ∀ x, ∀ u ∈ successors x, u < n) :
    Chained successors ((v :: new) :: s.components) := by
  refine ⟨fun x hx u hu => ?_, hs.chained⟩
  have hcases : s.mark u = .closed ∨ u ∈ new ∨ u = v := by
    rcases List.mem_cons.mp hx with rfl | hx
    · rcases hdone u hu with hu | hu | hu | ⟨j, hj, hle⟩
      · exact .inl hu
      · exact .inr (.inl hu)
      · exact .inr (.inr hu)
      · exact absurd hle (h.lt_of_old hs₀ hj)
    · obtain ⟨i, hi⟩ := h.seen_new hs hx
      rcases h.out x hx i hi u hu with hu | hu | hu | ⟨j, hj, hle⟩
      · exact .inl hu
      · exact .inr (.inl hu)
      · exact .inr (.inr hu)
      · exact absurd (Nat.le_trans (hleast x hx i hi) hle) (h.lt_of_old hs₀ hj)
  rcases hcases with hclosed | hu' | rfl
  · exact .inr ((hs.closed u (hbound x u hu)).mp hclosed)
  · exact .inl (List.mem_cons_of_mem _ hu')
  · exact .inl List.mem_cons_self

include hs₀ hv₀ hs h in
/-- No node of a component with such edges reaches a node seen before, so all of them reach the root. -/
theorem back_root (hchained : Chained successors ((v :: new) :: s.components)) {m : Nat}
    (hm : m ∈ new) : Path successors m v := by
  obtain ⟨i, hi⟩ := h.seen_new hs hm
  rcases h.back m hm i hi with ⟨z, j, hz, hj, -⟩ | ⟨-, hpath⟩
  · have hmem : z ∈ ((v :: new) :: s.components).flatten :=
      hchained.mem_of_path (List.mem_flatten_of_mem List.mem_cons_self
        (List.mem_cons_of_mem v hm)) hz
    have hzn : z < n := hs₀.size ▸ lt_of_seen hj
    rcases List.mem_append.mp (List.flatten_cons ▸ hmem) with hmem | hmem
    · exact absurd hmem (h.not_mem_of_old hv₀ (ne_unseen_of_seen hj))
    · have hclosed := (hs.closed z hzn).mpr hmem
      rw [h.frame z (ne_of_seen hj hv₀) (ne_unseen_of_seen hj), hj] at hclosed
      cases hclosed
  · exact hpath

include hs h in
/-- The component of a root has nothing in common with those that are complete. -/
theorem apart : ((v :: new) :: s.components).flatten.Nodup := by
  rw [List.flatten_cons]
  refine (List.nodup_cons.mpr ⟨h.off, h.distinct⟩).append hs.apart fun u hu hclosed => ?_
  obtain ⟨i, hi⟩ : ∃ i, s.mark u = .seen i := by
    rcases List.mem_cons.mp hu with rfl | hu
    · exact ⟨_, h.mark⟩
    · exact h.seen_new hs hu
  have hun : u < n := hs.size ▸ lt_of_seen hi
  rw [(hs.closed u hun).mpr hclosed] at hi
  cases hi

include hs₀ hv₀ hs h hleast hdone in
/-- A root is met again by none of the nodes seen before: it completes its component. -/
theorem close (hbound : ∀ x, ∀ u ∈ successors x, u < n) :
    Inv successors n path (s.close v) ∧ Visited successors s₀ (s.close v) v [] := by
  have hchained := h.chained hs₀ hs hleast hdone hbound
  obtain ⟨marks, hlength, hclose, hmark⟩ := h.close_eq hs₀ hv₀ hs hleast
  have hcomponents : (s.close v).components = (v :: new) :: s.components := by rw [hclose]
  have hstack : (s.close v).stack = s₀.stack := by rw [hclose]
  have hclock : (s.close v).clock = s.clock := by rw [hclose]
  -- the invariant of the search, then what the visit leaves
  refine ⟨⟨?_, fun u hu => ?_, fun {u i} hu => ?_, fun {u i} hu => ?_, fun {u} hu => ?_, ?_, ?_, ?_⟩,
    ⟨⟨hstack, fun u huv hu => ?_, nofun, nofun, nofun, nofun, List.nodup_nil⟩, ?_, fun _ => ?_,
      fun hne => absurd rfl hne, .inl rfl⟩⟩
  · rw [hclose]
    exact hlength.trans hs.size
  · rw [hmark, hcomponents, List.flatten_cons, List.mem_append]
    split
    · next hmem => exact ⟨fun _ => .inl hmem, fun _ => rfl⟩
    · next hmem => exact ⟨fun hc => .inr ((hs.closed u hu).mp hc), fun hc =>
        (hs.closed u hu).mpr (hc.resolve_left hmem)⟩
  · rw [hmark] at hu
    rw [hclock]
    split at hu
    · cases hu
    · exact hs.clock hu
  · rw [hmark] at hu
    rw [hstack]
    split at hu
    · cases hu
    · next hmem =>
        rcases hs.seen hu with hpath | hstack'
        · exact .inl ((List.mem_cons.mp hpath).resolve_left fun he => hmem (he ▸ List.mem_cons_self))
        · rw [h.stack] at hstack'
          exact .inr ((List.mem_append.mp hstack').resolve_left fun hm =>
            hmem (List.mem_cons_of_mem v hm))
  · rw [hstack] at hu
    obtain ⟨j, hj⟩ := hs₀.waiting hu
    rw [hmark, if_neg (h.not_mem_of_old hv₀ (ne_unseen_of_seen hj))]
    refine hs.waiting (hu.imp (List.mem_cons_of_mem v) fun hu => ?_)
    rw [h.stack]
    exact List.mem_append_right _ hu
  · rw [hcomponents]
    exact hchained
  · rw [hcomponents]
    intro c hc
    rcases List.mem_cons.mp hc with rfl | hc
    · exact ⟨v, new, rfl, h.off, h.below, fun m hm => h.back_root hs₀ hv₀ hs hchained hm, h.forest⟩
    · exact hs.strong c hc
  · rw [hcomponents]
    exact h.apart hs
  · rw [hmark, if_neg (h.not_mem_of_old hv₀ hu)]
    exact h.frame u huv hu
  · rw [hclock]
    exact Nat.le_of_lt h.clock
  · rw [hmark, if_pos List.mem_cons_self]

end

end Following

/-- A node that reaches further back is pushed. -/
theorem Following.push {new : List Nat} {k : Nat} (hv₀ : s₀.mark v = .unseen)
    (hs : Inv successors n (v :: path) s) (h : Following successors s₀ s v new false k)
    (hleast : ∀ m ∈ new, ∀ i, s.mark m = .seen i → k ≤ i)
    (hdone : ∀ u ∈ successors v, s.mark u = .closed ∨ u ∈ new ∨ u = v ∨
      ∃ j, s₀.mark u = .seen j ∧ k ≤ j) :
    Inv successors n path { s with stack := v :: s.stack } ∧
      Visited successors s₀ { s with stack := v :: s.stack } v (v :: new) := by
  obtain ⟨hlt, hold⟩ := h.lowered rfl
  have hk : ∀ {i}, s.mark v = .seen i → k = i := fun hi => Mark.seen.inj (h.mark.symm.trans hi)
  refine ⟨⟨hs.size, hs.closed, hs.clock, fun {u i} hu => ?_, fun {u} hu => ?_, hs.chained, hs.strong,
      hs.apart⟩,
    ⟨⟨?_, h.frame, fun m hm => ?_, fun m hm => ?_, fun m hm i hi => ?_, fun m hm i hi u hu => ?_,
      List.nodup_cons.mpr ⟨h.off, h.distinct⟩⟩, Nat.le_of_lt h.clock, nofun,
      fun _ => ⟨List.mem_cons_self, k, h.mark, hlt, hold, fun m hm j hj => ?_⟩,
      .inr ⟨new, rfl, h.forest⟩⟩⟩
  · rcases hs.seen hu with hpath | hstack
    · rcases List.mem_cons.mp hpath with rfl | hpath
      · exact .inr List.mem_cons_self
      · exact .inl hpath
    · exact .inr (List.mem_cons_of_mem v hstack)
  · rcases hu with hpath | hstack
    · exact hs.waiting (.inl (List.mem_cons_of_mem v hpath))
    · rcases List.mem_cons.mp hstack with rfl | hstack
      · exact hs.waiting (.inl List.mem_cons_self)
      · exact hs.waiting (.inr hstack)
  · rw [List.cons_append, ← h.stack]
  · rcases List.mem_cons.mp hm with rfl | hm
    · exact hv₀
    · exact h.unseen m hm
  · rcases List.mem_cons.mp hm with rfl | hm
    · exact .refl
    · exact h.below m hm
  · rcases List.mem_cons.mp hm with rfl | hm
    · obtain rfl := hk hi
      exact .inl hold
    · exact h.back m hm i hi
  · -- what holds of the successors of the node was shown while they were visited
    have hcases : s.mark u = .closed ∨ u ∈ new ∨ u = v ∨ ∃ j, s₀.mark u = .seen j ∧ i ≤ j := by
      rcases List.mem_cons.mp hm with rfl | hm
      · obtain rfl := hk hi
        exact hdone u hu
      · exact h.out m hm i hi u hu
    rcases hcases with hu | hu | hu | hu
    · exact .inl hu
    · exact .inr (.inl (List.mem_cons_of_mem v hu))
    · exact .inr (.inr (.inl hu))
    · exact .inr (.inr (.inr hu))
  · rcases List.mem_cons.mp hm with rfl | hm
    · exact Nat.le_of_eq (hk hj)
    · exact hleast m hm j hj

/-! ## The search -/

/-- The node is met: it is the end of the path now. -/
theorem Inv.meet (hs : Inv successors n path s) (hv : v < n) (hunseen : s.mark v = .unseen) :
    let s' := { s.setMark v (.seen s.clock) with clock := s.clock + 1 }
    Inv successors n (v :: path) s' ∧ Following successors s s' v [] true s.clock := by
  intro s'
  have hmark : ∀ u, s'.mark u = if u = v then .seen s.clock else s.mark u :=
    mark_setMark (by rw [hs.size]; exact hv) (.seen s.clock)
  refine ⟨⟨(List.length_set ..).trans hs.size, fun u hu => ?_, fun {u i} hu => ?_, fun {u i} hu => ?_,
    fun {u} hu => ?_, hs.chained, hs.strong, hs.apart⟩,
    ⟨⟨rfl, fun u huv _ => ?_, nofun, nofun, nofun, nofun, List.nodup_nil⟩, Nat.lt_succ_self _,
      List.not_mem_nil, ?_, fun _ => rfl, nofun, .nil v⟩⟩
  · rw [hmark]
    split
    · next huv =>
        subst huv
        exact ⟨nofun, fun hc => by rw [(hs.closed u hu).mpr hc] at hunseen; cases hunseen⟩
    · exact hs.closed u hu
  · rw [hmark] at hu
    split at hu
    · cases hu
      exact Nat.lt_succ_self _
    · exact Nat.lt_succ_of_lt (hs.clock hu)
  · rw [hmark] at hu
    split at hu
    · next huv => exact .inl (huv ▸ List.mem_cons_self)
    · exact (hs.seen hu).imp (List.mem_cons_of_mem v) id
  · rw [hmark]
    split
    · exact ⟨_, rfl⟩
    · next huv =>
        exact hs.waiting (hu.imp (fun hu => (List.mem_cons.mp hu).resolve_left huv) id)
  · rw [hmark, if_neg huv]
  · rw [hmark, if_pos rfl]

theorem Inv.off_path (hs : Inv successors n path s) (hunseen : s.mark v = .unseen) : v ∉ path := by
  intro hmem
  obtain ⟨i, hi⟩ := hs.waiting (.inl hmem)
  exact ne_of_seen hi hunseen rfl

/-- With fuel for every node that is not on the path, a visit does what it should. -/
theorem visit_spec (hbound : ∀ x, ∀ u ∈ successors x, u < n) {fuel : Nat}
    (hnodup : path.Nodup) (hpath : ∀ x ∈ path, x < n) (hfuel : n ≤ path.length + fuel) :
    Visits successors n path (visit successors fuel) := by
  induction fuel generalizing path with
  | zero =>
      intro v s hv hs hunseen
      -- All nodes are on the path, so none of them is unseen.
      have hsub : (v :: path) ⊆ List.range n := by
        intro x hx
        rcases List.mem_cons.mp hx with rfl | hx
        · exact List.mem_range.mpr hv
        · exact List.mem_range.mpr (hpath x hx)
      have hle := ((List.nodup_cons.mpr ⟨hs.off_path hunseen, hnodup⟩).subperm hsub).length_le
      rw [List.length_range, List.length_cons] at hle
      omega
  | succ fuel ih =>
      intro v s hv hs hunseen
      have hvisit : Visits successors n (v :: path) (visit successors fuel) := by
        refine ih (List.nodup_cons.mpr ⟨hs.off_path hunseen, hnodup⟩) (fun x hx => ?_) ?_
        · rcases List.mem_cons.mp hx with rfl | hx
          · exact hv
          · exact hpath x hx
        · rw [List.length_cons]
          omega
      obtain ⟨hmet, hfollowing⟩ := hs.meet hv hunseen
      have hnone : Low s { s.setMark v (.seen s.clock) with clock := s.clock + 1 } v [] [] s.clock :=
        ⟨nofun, nofun⟩
      obtain ⟨new, k, hinv, hf, hlow⟩ := follow_spec hvisit hs hmet hfollowing hnone
        fun u hu => ⟨hu, hbound v u hu⟩
      rw [visit]
      dsimp only at hinv hf hlow ⊢
      generalize follow (visit successors fuel) v (successors v) true
        { s.setMark v (.seen s.clock) with clock := s.clock + 1 } = r at hinv hf hlow
      obtain ⟨isRoot, r⟩ := r
      dsimp only at hinv hf hlow ⊢
      have hdone := fun u hu => hlow.done u (List.mem_append_left _ (List.mem_reverse.mpr hu))
      cases isRoot with
      | true =>
          obtain ⟨hinv, hvisited⟩ := hf.close hs hunseen hinv hlow.least hdone hbound
          exact ⟨hinv, [], hvisited⟩
      | false =>
          obtain ⟨hinv, hvisited⟩ := hf.push hunseen hinv hlow.least hdone
          exact ⟨hinv, v :: new, hvisited⟩

/-- Every node is visited unless it is closed already, and nothing waits in between. -/
theorem sweep_spec (hbound : ∀ x, ∀ u ∈ successors x, u < n) {nodes : List Nat}
    (hnodes : ∀ v ∈ nodes, v < n) (hs : Inv successors n [] s) (hstack : s.stack = []) :
    let s' := nodes.foldl
      (fun s v => if s.mark v = .unseen then visit successors n v s else s) s
    Inv successors n [] s' ∧ ∀ v, v ∈ nodes ∨ s.mark v = .closed → s'.mark v = .closed := by
  induction nodes generalizing s with
  | nil => exact ⟨hs, fun v hv => hv.resolve_left List.not_mem_nil⟩
  | cons v rest ih =>
      -- between two nodes of the list none is on the path, and none waits
      have hnone : ∀ {s : Search} {u i}, Inv successors n [] s → s.stack = [] →
          s.mark u ≠ .seen i := by
        intro s u i hs hstack hu
        rcases hs.seen hu with hmem | hmem
        · exact List.not_mem_nil hmem
        · rw [hstack] at hmem
          exact List.not_mem_nil hmem
      intro s'
      by_cases hunseen : s.mark v = .unseen
      · have hs' : s' = rest.foldl
            (fun s v => if s.mark v = .unseen then visit successors n v s else s)
            (visit successors n v s) := by
          simp only [s', List.foldl_cons, if_pos hunseen]
        obtain ⟨hinv, new, hvisited⟩ := visit_spec hbound List.nodup_nil nofun
          (by rw [List.length_nil, Nat.zero_add]) v s (hnodes v List.mem_cons_self) hs hunseen
        -- a node that is left on the stack would reach back to one that waits
        obtain rfl : new = [] := by
          by_contra hne
          obtain ⟨-, i, -, -, ⟨z, j, -, hj, -⟩, -⟩ := hvisited.root hne
          exact hnone hs hstack hj
        obtain ⟨hinv', hclosed⟩ := ih (fun u hu => hnodes u (List.mem_cons_of_mem v hu)) hinv
          (hvisited.stack.trans hstack)
        rw [hs']
        refine ⟨hinv', fun u hu => hclosed u ?_⟩
        by_cases huv : u = v
        · exact .inr (huv ▸ hvisited.closed rfl)
        · refine hu.imp (fun hu => (List.mem_cons.mp hu).resolve_left huv) fun hu => ?_
          exact (hvisited.keeps hunseen (ne_unseen_of_closed hu)).trans hu
      · have hs' : s' = rest.foldl
            (fun s v => if s.mark v = .unseen then visit successors n v s else s) s := by
          simp only [s', List.foldl_cons, if_neg hunseen]
        obtain ⟨hinv', hclosed⟩ := ih (fun u hu => hnodes u (List.mem_cons_of_mem v hu)) hs hstack
        rw [hs']
        refine ⟨hinv', fun u hu => hclosed u ?_⟩
        rcases hu with hu | hu
        · rcases List.mem_cons.mp hu with rfl | hu
          · cases hmark : s.mark u with
            | unseen => exact absurd hmark hunseen
            | seen i => exact absurd hmark (hnone hs hstack)
            | closed => exact .inr rfl
          · exact .inl hu
        · exact .inr hu

end Search

/-! ## Cycles -/

/-- The edges are between nodes of the graph. -/
def Inside (g : CallGraph) : Prop :=
  ∀ e ∈ g.edges, e.1 < g.nodes.length ∧ e.2 < g.nodes.length

theorem mem_successors {g : CallGraph} {v u : Nat} : u ∈ g.successors v ↔ (v, u) ∈ g.edges := by
  rw [successors, List.mem_reverse, List.mem_filterMap]
  constructor
  · rintro ⟨⟨a, b⟩, hmem, h⟩
    dsimp only at h
    split at h
    · next hab =>
        cases h
        exact hab ▸ hmem
    · cases h
  · intro hmem
    exact ⟨(v, u), hmem, if_pos rfl⟩

/-- The components are strongly connected, edges lead into the same or an earlier one, and each node is
in exactly one of them. -/
theorem components_spec {g : CallGraph} (hinside : g.Inside) :
    Search.Chained g.successors g.components.reverse ∧
      (∀ c ∈ g.components, ∃ root members, c = root :: members ∧
        Search.Strong g.successors root members) ∧
      (∀ v < g.nodes.length, v ∈ g.components.reverse.flatten) ∧
      g.components.reverse.flatten.Nodup := by
  have hunseen : ∀ v < g.nodes.length,
      Search.mark { marks := List.replicate g.nodes.length .unseen } v = .unseen := by
    intro v hv
    rw [Search.mark, List.getD_eq_getElem?_getD, List.getElem?_replicate, if_pos hv, Option.getD_some]
  have hnotSeen : ∀ {v i},
      Search.mark { marks := List.replicate g.nodes.length .unseen } v ≠ .seen i := by
    intro v i h
    have hlt := Search.lt_of_seen h
    rw [List.length_replicate] at hlt
    rw [hunseen v hlt] at h
    cases h
  have hstart : Search.Inv g.successors g.nodes.length []
      { marks := List.replicate g.nodes.length .unseen } := by
    refine ⟨List.length_replicate .., fun v hv => ?_, fun h => absurd h hnotSeen,
      fun h => absurd h hnotSeen, fun {v} h => ?_, trivial, nofun, List.nodup_nil⟩
    · rw [hunseen v hv]
      exact ⟨nofun, fun h => absurd h List.not_mem_nil⟩
    · rcases h with h | h <;> exact absurd h List.not_mem_nil
  have hnodes : ∀ v ∈ List.range g.nodes.length, v < g.nodes.length := fun v hv =>
    List.mem_range.mp hv
  obtain ⟨hinv, hclosed⟩ := Search.sweep_spec
    (fun x u hu => (hinside _ (mem_successors.mp hu)).2) hnodes hstart rfl
  rw [components, List.reverse_reverse]
  refine ⟨hinv.chained, fun c hc => hinv.strong c (List.mem_reverse.mp hc), fun v hv => ?_, hinv.apart⟩
  exact (hinv.closed v hv).mp (hclosed v (.inl (List.mem_range.mpr hv)))

/-- A chain of single nodes without edges to themselves has no cycle. -/
theorem not_cyclic_of_chained {successors : Nat → List Nat} {components : List (List Nat)}
    (hchained : Search.Chained successors components)
    (hsingle : ∀ c ∈ components, ∃ v, c = [v] ∧ v ∉ successors v) {v : Nat}
    (hv : v ∈ components.flatten) : ¬ Relation.TransGen (Edge successors) v v := by
  induction components with
  | nil => exact absurd hv List.not_mem_nil
  | cons c rest ih =>
      have ih := ih hchained.2 fun c hc => hsingle c (List.mem_cons_of_mem _ hc)
      by_cases hrest : v ∈ rest.flatten
      · exact ih hrest
      · obtain ⟨w, rfl, hself⟩ := hsingle c List.mem_cons_self
        obtain rfl : v = w := List.mem_singleton.mp
          ((List.mem_append.mp (List.flatten_cons ▸ hv)).resolve_right hrest)
        intro hcycle
        obtain ⟨u, hedge, hback⟩ := Relation.TransGen.head'_iff.mp hcycle
        rcases hchained.1 v List.mem_cons_self u hedge with hu | hu
        · rw [List.mem_singleton.mp hu] at hedge
          exact hself hedge
        · exact hrest (hchained.2.mem_of_path hu hback)

/-- The search finds a component that can reach itself exactly if there is a cycle. -/
theorem findCycle_eq_none_iff {g : CallGraph} (hinside : g.Inside) :
    g.findCycle = none ↔ ∀ v, ¬ Relation.TransGen (fun v u => (v, u) ∈ g.edges) v v := by
  have hedge : (fun v u => (v, u) ∈ g.edges) = Edge g.successors :=
    funext fun v => funext fun u => propext mem_successors.symm
  obtain ⟨hchained, hstrong, hall, -⟩ := components_spec hinside
  rw [findCycle, Option.map_eq_none_iff, List.find?_eq_none, hedge]
  constructor
  · intro hloops v hcycle
    refine not_cyclic_of_chained hchained (fun c hc => ?_) (hall v ?_) hcycle
    · have hc := List.mem_reverse.mp hc
      obtain ⟨root, members, rfl, -⟩ := hstrong c hc
      have hloop := hloops _ hc
      cases members with
      | nil =>
          refine ⟨root, rfl, fun hself => hloop ?_⟩
          exact List.contains_iff_mem.mpr (mem_successors.mp hself)
      | cons m members => exact absurd rfl hloop
    · obtain ⟨u, hfirst, -⟩ := Relation.TransGen.head'_iff.mp hcycle
      exact (hinside _ (mem_successors.mp hfirst)).1
  · intro hacyclic c hc hloop
    obtain ⟨root, members, rfl, hs⟩ := hstrong c hc
    cases members with
    | nil =>
        exact hacyclic root (.single (mem_successors.mpr (List.contains_iff_mem.mp hloop)))
    | cons m members =>
        have hne : m ≠ root := fun he => hs.distinct (he ▸ List.mem_cons_self)
        have hbelow := Relation.reflTransGen_iff_eq_or_transGen.mp (hs.below m List.mem_cons_self)
        exact hacyclic root
          ((hbelow.resolve_left hne).trans_left (hs.back m List.mem_cons_self))


end Graft.CallGraph
