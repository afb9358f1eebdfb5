import Graft.Pass.Reach
import Graft.Proofs.Undoing
import Mathlib.Data.List.Perm.Subperm

/-!
# What can be reached

The search for the namespaces that a pass can look into ends where it should: the namespaces found are
there, those that it starts from are among them, and nothing bound in one of them leads to another
namespace that is there.
-/

namespace Graft.World

variable {w : World} {seen ids : List NamespaceId} {i : NamespaceId}

/-- No callable bound in one of the namespaces leads to another one that is there. -/
def Enclosed (w : World) (seen : List NamespaceId) : Prop :=
  ∀ i ∈ seen, ∀ j ∈ w.neighbours i, (w.namespace? j).isSome → j ∈ seen

/-! ## One round -/

theorem addLive_cons (w : World) (seen ids : List NamespaceId) (i : NamespaceId) :
    w.addLive seen (i :: ids) =
      w.addLive (if seen.contains i || (w.namespace? i).isNone then seen else seen ++ [i]) ids := rfl

theorem prefix_addLive (w : World) (seen ids : List NamespaceId) : seen <+: w.addLive seen ids := by
  induction ids generalizing seen with
  | nil => exact List.prefix_refl _
  | cons i ids ih =>
      rw [addLive_cons]
      split
      · exact ih seen
      · exact (List.prefix_append _ _).trans (ih _)

theorem mem_addLive :
    i ∈ w.addLive seen ids ↔ i ∈ seen ∨ i ∈ ids ∧ (w.namespace? i).isSome := by
  induction ids generalizing seen with
  | nil => simp [addLive]
  | cons j ids ih =>
      rw [addLive_cons, ih]
      split
      · next h =>
          rw [Bool.or_eq_true, List.contains_iff_mem, Option.isNone_iff_eq_none] at h
          constructor
          · exact Or.imp_right fun hi => ⟨List.mem_cons_of_mem _ hi.1, hi.2⟩
          · rintro (hi | ⟨hi, hlive⟩)
            · exact .inl hi
            · rcases List.mem_cons.mp hi with rfl | hi
              · exact .inl (h.resolve_right fun hnone => by rw [hnone] at hlive; cases hlive)
              · exact .inr ⟨hi, hlive⟩
      · next h =>
          rw [Bool.or_eq_true, not_or, Option.isNone_iff_eq_none] at h
          have hlive : (w.namespace? j).isSome := Option.isSome_iff_ne_none.mpr h.2
          rw [List.mem_append, List.mem_singleton, List.mem_cons]
          constructor
          · rintro ((hi | rfl) | ⟨hi, hlive⟩)
            · exact .inl hi
            · exact .inr ⟨.inl rfl, hlive⟩
            · exact .inr ⟨.inr hi, hlive⟩
          · rintro (hi | ⟨rfl | hi, hlive⟩)
            · exact .inl (.inl hi)
            · exact .inl (.inr rfl)
            · exact .inr ⟨hi, hlive⟩

/-- A round over namespaces that are seen or gone finds nothing. -/
theorem addLive_eq_self (h : ∀ i ∈ ids, (w.namespace? i).isSome → i ∈ seen) :
    w.addLive seen ids = seen := by
  induction ids with
  | nil => rfl
  | cons i ids ih =>
      have hseen : (seen.contains i || (w.namespace? i).isNone) = true := by
        cases hi : w.namespace? i with
        | none => rw [Option.isNone_none, Bool.or_true]
        | some ns =>
            rw [List.contains_iff_mem.mpr (h i List.mem_cons_self (by rw [hi]; rfl)), Bool.true_or]
      rw [addLive_cons, if_pos hseen]
      exact ih fun j hj => h j (List.mem_cons_of_mem _ hj)

theorem nodup_addLive (h : seen.Nodup) : (w.addLive seen ids).Nodup := by
  induction ids generalizing seen with
  | nil => exact h
  | cons j ids ih =>
      rw [addLive_cons]
      split
      · exact ih h
      · next hnew =>
          rw [Bool.or_eq_true, not_or, List.contains_iff_mem] at hnew
          refine ih (List.nodup_append.mpr ⟨h, by simp, fun a ha b hb => ?_⟩)
          rw [List.mem_singleton.mp hb]
          exact fun he => hnew.1 (he ▸ ha)

/-! ## All rounds -/

theorem mem_ids (h : (w.namespace? i).isSome) : i ∈ w.namespaces.map Prod.fst := by
  obtain ⟨ns, hns⟩ := Option.isSome_iff_exists.mp h
  obtain ⟨entry, hfind, -⟩ := Option.map_eq_some_iff.mp hns
  exact List.mem_map.mpr ⟨entry, List.mem_of_find?_eq_some hfind, by simpa using List.find?_some hfind⟩

/-- Of namespaces that are there, no more are found than there are. -/
theorem length_le_of_live (nodup : seen.Nodup) (live : ∀ i ∈ seen, (w.namespace? i).isSome) :
    seen.length ≤ w.namespaces.length := by
  have hsub : seen ⊆ w.namespaces.map Prod.fst := fun i hi => mem_ids (live i hi)
  have hlength := (nodup.subperm hsub).length_le
  rwa [List.length_map] at hlength

/-- A round that finds nothing new is the last one that matters. -/
theorem spread_of_enclosed (h : w.Enclosed seen) (rounds : Nat) : w.spread rounds seen = seen := by
  have hround : w.addLive seen (seen.flatMap w.neighbours) = seen := addLive_eq_self fun j hj => by
    obtain ⟨i, hi, hj⟩ := List.mem_flatMap.mp hj
    exact h i hi j hj
  induction rounds with
  | zero => rfl
  | succ rounds ih => rw [spread, hround, ih]

/-- After as many rounds as there are namespaces left, nothing new is found. -/
theorem enclosed_spread {rounds : Nat} (nodup : seen.Nodup)
    (live : ∀ i ∈ seen, (w.namespace? i).isSome)
    (enough : w.namespaces.length ≤ seen.length + rounds) : w.Enclosed (w.spread rounds seen) := by
  induction rounds generalizing seen with
  | zero =>
      show w.Enclosed seen
      intro i hi j hj hlive
      by_contra hnew
      have hlength := length_le_of_live (List.nodup_cons.mpr ⟨hnew, nodup⟩) fun k hk => by
        rcases List.mem_cons.mp hk with rfl | hk
        · exact hlive
        · exact live k hk
      rw [List.length_cons] at hlength
      omega
  | succ rounds ih =>
      by_cases h : w.Enclosed seen
      · rw [spread_of_enclosed h]
        exact h
      · have hlive : ∀ i ∈ w.addLive seen (seen.flatMap w.neighbours), (w.namespace? i).isSome :=
          fun i hi => (mem_addLive.mp hi).elim (live i) And.right
        refine ih (nodup_addLive nodup) hlive ?_
        have hgrows : seen.length < (w.addLive seen (seen.flatMap w.neighbours)).length := by
          by_contra hle
          refine h fun i hi j hj hlive => ?_
          rw [(prefix_addLive w seen _).eq_of_length_le (Nat.not_lt.mp hle)]
          exact mem_addLive.mpr (.inr ⟨List.mem_flatMap.mpr ⟨i, hi, hj⟩, hlive⟩)
        omega

theorem subset_spread (rounds : Nat) : seen ⊆ w.spread rounds seen := by
  induction rounds generalizing seen with
  | zero => exact List.Subset.refl _
  | succ rounds ih => exact List.Subset.trans (prefix_addLive w seen _).subset ih

theorem live_spread (rounds : Nat) (live : ∀ i ∈ seen, (w.namespace? i).isSome) :
    ∀ i ∈ w.spread rounds seen, (w.namespace? i).isSome := by
  induction rounds generalizing seen with
  | zero => exact live
  | succ rounds ih => exact ih fun i hi => (mem_addLive.mp hi).elim (live i) And.right

/-! ## The whole search -/

theorem mem_reachable_iff : i ∈ w.reachable ids ↔ i ∈ w.spread w.namespaces.length (w.addLive [] ids) :=
  List.mem_mergeSort

/-- The namespaces found are there. -/
theorem live_reachable (h : i ∈ w.reachable ids) : (w.namespace? i).isSome := by
  refine live_spread _ (fun j hj => ?_) i (mem_reachable_iff.mp h)
  exact (mem_addLive.mp hj).elim (fun h => absurd h List.not_mem_nil) And.right

/-- The namespaces that the search starts from are found. -/
theorem mem_reachable (h : i ∈ ids) (live : (w.namespace? i).isSome) : i ∈ w.reachable ids :=
  mem_reachable_iff.mpr (subset_spread _ (mem_addLive.mpr (.inr ⟨h, live⟩)))

/-- Nothing leads out of the namespaces found. -/
theorem enclosed_reachable (w : World) (ids : List NamespaceId) : w.Enclosed (w.reachable ids) := by
  have hstart : ∀ i ∈ w.addLive [] ids, (w.namespace? i).isSome := fun j hj =>
    (mem_addLive.mp hj).elim (fun h => absurd h List.not_mem_nil) And.right
  have henclosed := enclosed_spread (nodup_addLive List.nodup_nil) hstart (Nat.le_add_left _ _)
  exact fun i hi j hj hlive => mem_reachable_iff.mpr
    (henclosed i (mem_reachable_iff.mp hi) j hj hlive)

/-- The search finds the same in worlds with the same namespaces. -/
theorem reachable_congr {v : World} (spaces : w.namespace? = v.namespace?)
    (length : w.namespaces.length = v.namespaces.length) (ids : List NamespaceId) :
    w.reachable ids = v.reachable ids := by
  have hneighbours : w.neighbours = v.neighbours := by
    funext i
    rw [neighbours, neighbours, spaces]
  have hadd : w.addLive = v.addLive := by
    funext seen ids
    simp only [addLive, spaces]
  have hspread : w.spread = v.spread := by
    funext rounds
    induction rounds with
    | zero => rfl
    | succ rounds ih =>
        funext seen
        rw [spread, spread, ih, hadd, hneighbours]
  rw [reachable, reachable, hspread, hadd, length]

end Graft.World
