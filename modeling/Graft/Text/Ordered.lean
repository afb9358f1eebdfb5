/-!
# Ordered names

Finite sets of names, kept as increasing lists. The order is that of the code points.
-/

namespace Graft.Ordered

/-- Puts a name into its place, unless it is there. -/
def insert (n : String) : List String → List String
  | [] => [n]
  | m :: rest => if n < m then n :: m :: rest else if n = m then m :: rest else m :: insert n rest

/-- The names of a list, each once, in increasing order. -/
def ofList (names : List String) : List String := names.foldl (fun set n => insert n set) []

/-- The names of both sets. -/
def union (a b : List String) : List String := b.foldl (fun set n => insert n set) a

theorem mem_insert {x n : String} {set : List String} : x ∈ insert n set ↔ x = n ∨ x ∈ set := by
  induction set with
  | nil => simp [insert]
  | cons m rest ih =>
    unfold insert
    split
    · simp
    · split
      · next h => subst h; simp
      · simp only [List.mem_cons, ih]
        constructor
        · rintro (h | h | h)
          · exact .inr (.inl h)
          · exact .inl h
          · exact .inr (.inr h)
        · rintro (h | h | h)
          · exact .inr (.inl h)
          · exact .inl h
          · exact .inr (.inr h)

theorem mem_union {x : String} {a b : List String} : x ∈ union a b ↔ x ∈ a ∨ x ∈ b := by
  unfold union
  induction b generalizing a with
  | nil => simp
  | cons n rest ih =>
    rw [List.foldl_cons, ih, mem_insert, List.mem_cons]
    constructor
    · rintro ((h | h) | h)
      · exact .inr (.inl h)
      · exact .inl h
      · exact .inr (.inr h)
    · rintro (h | h | h)
      · exact .inl (.inr h)
      · exact .inl (.inl h)
      · exact .inr h

theorem mem_ofList {x : String} {names : List String} : x ∈ ofList names ↔ x ∈ names := by
  have h := @mem_union x [] names
  simpa [union, ofList] using h

end Graft.Ordered
