import Graft.Callable

/-!
# The cache of specializations

Finished artifacts by the hash of what they were made from. A key also tells which namespaces it
looked at and how often each had been changed by then; once one of them changes or goes, the key is
stale and so is what is kept under it.
-/

namespace Graft

/-- How often a namespace that is still there was changed. -/
abbrev Generations := NamespaceId → Option Nat

structure CacheKey where
  digest : Digest
  /-- Namespaces in increasing order, with their generations. -/
  dependsOn : List (NamespaceId × Nat)
  deriving DecidableEq, Repr, Inhabited

namespace CacheKey

/-- Whether a namespace that the key depends on changed or went. -/
def isStale (k : CacheKey) (now : Generations) : Bool :=
  k.dependsOn.any fun (id, generation) => now id ≠ some generation

/-- The record of a key: the function, the namespaces, and the substitutions by name. -/
def record (f : Function) (dependsOn : List (NamespaceId × Nat))
    (overrides : List (String × Callable)) : Record :=
  Record.start .key ++ Record.word f.id ++ Record.digest f.fingerprint ++
    Record.word dependsOn.length ++
    (dependsOn.flatMap fun (id, generation) => Record.word id ++ Record.word generation) ++
    Record.word overrides.length ++
    (sortByName overrides).flatMap fun (name, c) => Record.string name ++ c.identity

end CacheKey

structure Cache where
  entries : List (CacheKey × Artifact) := []
  hits : Nat := 0
  misses : Nat := 0
  deriving Inhabited

namespace Cache

/-- What is kept under a key. -/
def find? (c : Cache) (key : CacheKey) : Option Artifact :=
  (c.entries.find? fun entry => entry.1.digest = key.digest).map Prod.snd

/-- What is kept under a key, and the cache with the look-up counted. -/
def get (c : Cache) (key : CacheKey) : Option Artifact × Cache :=
  match c.find? key with
  | some a => (some a, { c with hits := c.hits + 1 })
  | none => (none, { c with misses := c.misses + 1 })

/-- Keeps an artifact, unless its key is stale, and lets stale ones go. -/
def insert (c : Cache) (now : Generations) (key : CacheKey) (a : Artifact) : Cache :=
  let live := c.entries.filter fun entry => !entry.1.isStale now
  if key.isStale now then { c with entries := live }
  else
    { c with
      entries := (key, a) :: live.filter fun entry => entry.1.digest ≠ key.digest }

def clear (c : Cache) : Cache := { c with entries := [] }

@[simp] theorem get_fst (c : Cache) (key : CacheKey) : (c.get key).1 = c.find? key := by
  cases h : c.find? key <;> simp [get, h]

/-- Every look-up is counted, as a hit or as a miss. -/
theorem get_count (c : Cache) (key : CacheKey) :
    (c.get key).2.hits + (c.get key).2.misses = c.hits + c.misses + 1 := by
  cases h : c.find? key <;> simp only [get, h] <;> omega

end Cache

end Graft
