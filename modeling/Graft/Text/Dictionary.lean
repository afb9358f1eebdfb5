import Graft.Text.Ordered

/-!
# Dictionaries

Names with something attached, as lists of pairs. `put` keeps the order in which names came;
`sortPut` keeps the names in increasing order.
-/

namespace Graft.Dictionary

variable {α : Type}

/-- What is attached to a name. -/
def get? (name : String) : List (String × α) → Option α
  | [] => none
  | (n, a) :: rest => if n = name then some a else get? name rest

def contains (name : String) (entries : List (String × α)) : Bool := (get? name entries).isSome

/-- Attaches `a` to a name, in its place if the name is there, and at the end if not. -/
def put (name : String) (a : α) : List (String × α) → List (String × α)
  | [] => [(name, a)]
  | (n, b) :: rest => if n = name then (n, a) :: rest else (n, b) :: put name a rest

/-- The entries without that of a name. -/
def erase (name : String) (entries : List (String × α)) : List (String × α) :=
  entries.filter fun entry => entry.1 ≠ name

/-- Attaches `a` to a name among increasing names. -/
def sortPut (name : String) (a : α) : List (String × α) → List (String × α)
  | [] => [(name, a)]
  | (n, b) :: rest =>
    if name < n then (name, a) :: (n, b) :: rest
    else if name = n then (n, a) :: rest
    else (n, b) :: sortPut name a rest

/-- The entries in increasing order of their names; of two with one name, the later one stays. -/
def sorted (entries : List (String × α)) : List (String × α) :=
  entries.foldl (fun d (n, a) => sortPut n a d) []

def keys (entries : List (String × α)) : List String := entries.map Prod.fst

@[simp] theorem get?_put_self (name : String) (a : α) (d : List (String × α)) :
    get? name (put name a d) = some a := by
  induction d with
  | nil => simp [put, get?]
  | cons p rest ih =>
    obtain ⟨n, b⟩ := p
    by_cases h : n = name <;> simp [put, get?, h, ih]

theorem get?_put_of_ne {name other : String} (h : other ≠ name) (a : α)
    (d : List (String × α)) : get? other (put name a d) = get? other d := by
  induction d with
  | nil => simp [put, get?, h.symm]
  | cons p rest ih =>
    obtain ⟨n, b⟩ := p
    by_cases hn : n = name
    · subst hn; simp [put, get?, h.symm]
    · by_cases ho : n = other
      · subst ho; simp [put, get?, h]
      · simp [put, get?, hn, ho, ih]

@[simp] theorem get?_erase_self (name : String) (d : List (String × α)) :
    get? name (erase name d) = none := by
  induction d with
  | nil => rfl
  | cons p rest ih =>
    obtain ⟨n, b⟩ := p
    by_cases h : n = name
    · simpa [erase, h] using ih
    · simpa [erase, get?, h] using ih

theorem get?_erase_of_ne {name other : String} (h : other ≠ name) (d : List (String × α)) :
    get? other (erase name d) = get? other d := by
  induction d with
  | nil => rfl
  | cons p rest ih =>
    obtain ⟨n, b⟩ := p
    by_cases hn : n = name
    · subst hn; simpa [erase, get?, h.symm] using ih
    · by_cases ho : n = other
      · subst ho; simp [erase, get?, hn]
      · simpa [erase, get?, hn, ho] using ih

end Graft.Dictionary
