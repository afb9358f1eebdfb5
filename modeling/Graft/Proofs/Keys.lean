import Graft.Proofs.Reaching
import Graft.Proofs.Records
import Graft.Proofs.Replacements

/-!
# What a key tells

A key hashes a stream of bytes that tells the function, the namespaces that a pass can look into with
their generations, and the replacements. As long as no two functions and no two artifacts have one
number, streams that are equal tell of the very same objects.
-/

namespace Graft

/-! ## Numbers taken -/

/-- The functions and artifacts that were made so far. No two have one number. -/
structure Ledger where
  functions : Function → Prop
  artifacts : Artifact → Prop
  functions_unique : ∀ {f g}, functions f → functions g → f.id = g.id → f = g
  artifacts_unique : ∀ {a b}, artifacts a → artifacts b → a.id = b.id → a = b

namespace Ledger

variable {L M N : Ledger}

/-- Everything in `L` is in `M`. -/
structure Le (L M : Ledger) : Prop where
  functions : ∀ {f}, L.functions f → M.functions f
  artifacts : ∀ {a}, L.artifacts a → M.artifacts a

instance : LE Ledger := ⟨Le⟩

theorem le_refl (L : Ledger) : L ≤ L := ⟨id, id⟩

theorem le_trans (h : L ≤ M) (h' : M ≤ N) : L ≤ N :=
  ⟨fun hf => h'.functions (h.functions hf), fun ha => h'.artifacts (h.artifacts ha)⟩

/-- A ledger without entries. -/
def empty : Ledger where
  functions _ := False
  artifacts _ := False
  functions_unique h := h.elim
  artifacts_unique h := h.elim

/-- With one more object of a new number, still no number belongs to two. -/
theorem one_more {α : Type} {id : α → Nat} {known : α → Prop} {new : α}
    (unique : ∀ {a b}, known a → known b → id a = id b → a = b)
    (fresh : ∀ a, known a → id a ≠ id new) {a b : α} (ha : a = new ∨ known a)
    (hb : b = new ∨ known b) (h : id a = id b) : a = b := by
  rcases ha with rfl | ha
  · rcases hb with rfl | hb
    · rfl
    · exact absurd h.symm (fresh b hb)
  · rcases hb with rfl | hb
    · exact absurd h (fresh a ha)
    · exact unique ha hb h

/-- One more function. -/
def withFunction (L : Ledger) (new : Function) (fresh : ∀ f, L.functions f → f.id ≠ new.id) :
    Ledger where
  functions f := f = new ∨ L.functions f
  artifacts := L.artifacts
  functions_unique := one_more L.functions_unique fresh
  artifacts_unique := L.artifacts_unique

theorem le_withFunction {new : Function} (fresh : ∀ f, L.functions f → f.id ≠ new.id) :
    L ≤ L.withFunction new fresh := ⟨.inr, id⟩

/-- One more artifact. -/
def withArtifact (L : Ledger) (new : Artifact) (fresh : ∀ a, L.artifacts a → a.id ≠ new.id) :
    Ledger where
  functions := L.functions
  artifacts a := a = new ∨ L.artifacts a
  functions_unique := L.functions_unique
  artifacts_unique := one_more L.artifacts_unique fresh

theorem le_withArtifact {new : Artifact} (fresh : ∀ a, L.artifacts a → a.id ≠ new.id) :
    L ≤ L.withArtifact new fresh := ⟨id, .inr⟩

end Ledger

namespace Callable

variable {L M : Ledger} {c c' : Callable} {entries : List (String × Callable)}

/-- All functions and artifacts in the callable are in the ledger. -/
structure Known (L : Ledger) (c : Callable) : Prop where
  functions : ∀ f ∈ c.functions, L.functions f
  artifacts : ∀ a ∈ c.artifacts, L.artifacts a

/-- All callables in the entries are known. -/
def AllKnown (L : Ledger) (entries : List (String × Callable)) : Prop :=
  ∀ entry ∈ entries, entry.2.Known L

theorem Known.mono (h : c.Known L) (hle : L ≤ M) : c.Known M :=
  ⟨fun f hf => hle.functions (h.functions f hf), fun a ha => hle.artifacts (h.artifacts a ha)⟩

theorem AllKnown.mono (h : AllKnown L entries) (hle : L ≤ M) : AllKnown M entries :=
  fun entry he => (h entry he).mono hle

theorem mem_functionsAll {f : Function} :
    f ∈ functions.functionsAll entries ↔ ∃ entry ∈ entries, f ∈ entry.2.functions := by
  induction entries with
  | nil => simp [functions.functionsAll]
  | cons entry rest ih => simp [functions.functionsAll, ih]

theorem mem_artifactsAll {a : Artifact} :
    a ∈ artifacts.artifactsAll entries ↔ ∃ entry ∈ entries, a ∈ entry.2.artifacts := by
  induction entries with
  | nil => simp [artifacts.artifactsAll]
  | cons entry rest ih => simp [artifacts.artifactsAll, ih]

@[simp] theorem functions_unwrapped (c : Callable) : c.unwrapped.functions = c.functions := by
  cases c <;> rfl

@[simp] theorem artifacts_unwrapped (c : Callable) : c.unwrapped.artifacts = c.artifacts := by
  cases c <;> rfl

@[simp] theorem unwrapped_unwrapped (c : Callable) : c.unwrapped.unwrapped = c.unwrapped := by
  cases c <;> rfl

theorem Known.unwrapped (h : c.Known L) : c.unwrapped.Known L :=
  ⟨by rw [functions_unwrapped]; exact h.functions, by rw [artifacts_unwrapped]; exact h.artifacts⟩

theorem AllKnown.unwrapOverrides (h : AllKnown L entries) :
    AllKnown L (Graft.unwrapOverrides entries) := by
  intro entry he
  obtain ⟨original, ho, rfl⟩ := List.mem_map.mp he
  exact (h original ho).unwrapped

theorem known_function {f : Function} (h : L.functions f) : (Callable.function f).Known L :=
  ⟨fun _ hg => List.mem_singleton.mp hg ▸ h, fun _ ha => absurd ha List.not_mem_nil⟩

theorem known_artifact {a : Artifact} (h : L.artifacts a) : (Callable.artifact a).Known L :=
  ⟨fun _ hf => absurd hf List.not_mem_nil, fun _ hb => List.mem_singleton.mp hb ▸ h⟩

theorem known_native (n : Native) : (Callable.native n).Known L :=
  ⟨fun _ hf => absurd hf List.not_mem_nil, fun _ ha => absurd ha List.not_mem_nil⟩

theorem known_gateway {g : Gateway} (h : L.functions g.function) : (Callable.gateway g).Known L :=
  ⟨fun _ hf => List.mem_singleton.mp hf ▸ h, fun _ ha => absurd ha List.not_mem_nil⟩

theorem known_bound {i : Nat} {g : Gateway} {d : Digest} (hg : L.functions g.function)
    (h : AllKnown L entries) : (Callable.bound i g entries d).Known L := by
  refine ⟨fun f hf => ?_, fun a ha => ?_⟩
  · rcases List.mem_cons.mp hf with rfl | hf
    · exact hg
    · obtain ⟨entry, he, hf⟩ := mem_functionsAll.mp hf
      exact (h entry he).functions f hf
  · obtain ⟨entry, he, ha⟩ := mem_artifactsAll.mp ha
    exact (h entry he).artifacts a ha

theorem Known.function {f : Function} (h : (Callable.function f).Known L) : L.functions f :=
  h.functions f (List.mem_singleton_self f)

theorem Known.artifact {a : Artifact} (h : (Callable.artifact a).Known L) : L.artifacts a :=
  h.artifacts a (List.mem_singleton_self a)

theorem Known.gateway {g : Gateway} (h : (Callable.gateway g).Known L) : L.functions g.function :=
  h.functions g.function (List.mem_singleton_self _)

theorem Known.bound {i : Nat} {g : Gateway} {d : Digest} (h : (Callable.bound i g entries d).Known L) :
    L.functions g.function ∧ AllKnown L entries :=
  ⟨h.functions g.function List.mem_cons_self, fun entry he =>
    ⟨fun f hf => h.functions f (List.mem_cons_of_mem _ (mem_functionsAll.mpr ⟨entry, he, hf⟩)),
      fun a ha => h.artifacts a (mem_artifactsAll.mpr ⟨entry, he, ha⟩)⟩⟩

/-! ## Reading identities back -/

/-- The numbers in a callable fit into eight bytes. -/
structure Fits (c : Callable) : Prop where
  functions : ∀ f ∈ c.functions, IsWord f.id
  artifacts : ∀ a ∈ c.artifacts, IsWord a.id

instance (c : Callable) : Decidable c.Fits :=
  decidable_of_iff ((∀ f ∈ c.functions, IsWord f.id) ∧ ∀ a ∈ c.artifacts, IsWord a.id)
    ⟨fun h => ⟨h.1, h.2⟩, fun h => ⟨h.functions, h.artifacts⟩⟩

/-- The word at the front of an identity. -/
def mark : Callable → String
  | .function _ | .gateway _ => "fn"
  | .artifact _ => "compiled"
  | .native _ => "native"
  | .bound .. => "partial"

theorem isWord_mark (c : Callable) : IsWord c.mark.utf8ByteSize := by
  have h : ∀ s ∈ ["fn", "compiled", "native", "partial"], IsWord s.utf8ByteSize := by decide
  refine h c.mark ?_
  cases c <;> simp [mark]

theorem identity_eq_mark (c : Callable) : ∃ r, c.identity = Record.string c.mark ++ r := by
  cases c with
  | function f => exact ⟨_, List.append_assoc _ _ _⟩
  | gateway g => exact ⟨_, List.append_assoc _ _ _⟩
  | artifact a => exact ⟨_, rfl⟩
  | native n => exact ⟨_, rfl⟩
  | bound i g overrides d =>
      refine ⟨Record.word g.function.id ++ (Record.word overrides.length ++
        identity.identities overrides), ?_⟩
      simp only [identity, mark, List.append_assoc]

variable {r r' : Record}

/-- A replacement without substitutions made ahead is told by its identity. -/
theorem identity_append_inj (hc : c.Known L) (hc' : c'.Known L) (fits : c.Fits) (fits' : c'.Fits)
    (plain : c.unwrapped = c) (plain' : c'.unwrapped = c')
    (finished : ∀ i g overrides d, c ≠ .bound i g overrides d)
    (h : c.identity ++ r = c'.identity ++ r') : c = c' ∧ r = r' := by
  -- the first field tells the sort of the callable
  have hmark : c.mark = c'.mark := by
    obtain ⟨s, hs⟩ := c.identity_eq_mark
    obtain ⟨s', hs'⟩ := c'.identity_eq_mark
    rw [hs, hs', List.append_assoc, List.append_assoc] at h
    exact (Record.string_append_inj c.isWord_mark c'.isWord_mark h).1
  cases c with
  | bound i g overrides d => exact absurd rfl (finished i g overrides d)
  | gateway g => cases plain
  | function f =>
      cases c' with
      | function f' =>
          simp only [identity, identity.ofFunction, List.append_assoc] at h
          obtain ⟨-, h⟩ := Record.string_append_inj (by decide) (by decide) h
          obtain ⟨hid, hrest⟩ := Record.word_append_inj (fits.functions f (List.mem_singleton_self f))
            (fits'.functions f' (List.mem_singleton_self f')) h
          obtain rfl := L.functions_unique hc.function hc'.function hid
          exact ⟨rfl, List.append_cancel_left hrest⟩
      | gateway g => cases plain'
      | artifact _ | native _ | bound _ _ _ _ => simp [mark] at hmark
  | artifact a =>
      cases c' with
      | artifact a' =>
          simp only [identity, List.append_assoc] at h
          obtain ⟨-, h⟩ := Record.string_append_inj (by decide) (by decide) h
          obtain ⟨hid, hrest⟩ := Record.word_append_inj (fits.artifacts a (List.mem_singleton_self a))
            (fits'.artifacts a' (List.mem_singleton_self a')) h
          obtain rfl := L.artifacts_unique hc.artifact hc'.artifact hid
          exact ⟨rfl, hrest⟩
      | function _ | gateway _ | native _ | bound _ _ _ _ => simp [mark] at hmark
  | native n =>
      cases c' with
      | native n' =>
          simp only [identity, List.append_assoc] at h
          obtain ⟨-, h⟩ := Record.string_append_inj (by decide) (by decide) h
          obtain ⟨hname, h⟩ := Record.string_append_inj n.isWord_name n'.isWord_name h
          exact ⟨congrArg _ (Native.name_inj hname), h⟩
      | function _ | artifact _ | gateway _ | bound _ _ _ _ => simp [mark] at hmark

end Callable

/-! ## Sorted replacements -/

namespace Dictionary

variable {α : Type} {d d' : List (String × α)}

theorem sortPut_perm {name : String} (a : α) (h : name ∉ keys d) :
    (sortPut name a d).Perm ((name, a) :: d) := by
  induction d with
  | nil => exact .refl _
  | cons entry rest ih =>
      obtain ⟨n, b⟩ := entry
      obtain ⟨hne, hrest⟩ := not_or.mp (mt List.mem_cons.mpr h)
      rw [sortPut]
      split
      · exact .refl _
      · exact ((ih hrest).cons _).trans (.swap _ _ _)

theorem sorted_perm (distinct : (keys d).Nodup) : (sorted d).Perm d := by
  have h : ∀ k : List (String × α), (keys (k ++ d)).Nodup →
      (d.foldl (fun d entry => sortPut entry.1 entry.2 d) k).Perm (k ++ d) := by
    clear distinct
    induction d with
    | nil => exact fun k _ => by rw [List.append_nil]; exact .refl k
    | cons entry rest ih =>
        intro k hk
        have hmiddle : (k ++ entry :: rest).Perm (entry :: k ++ rest) := List.perm_middle
        have hnew : entry.1 ∉ keys k := by
          have hnodup := (hmiddle.map Prod.fst).nodup_iff.mp hk
          exact fun hmem => (List.nodup_cons.mp hnodup).1
            (List.mem_map.mpr ((List.mem_map.mp hmem).imp fun e he =>
              ⟨List.mem_append_left _ he.1, he.2⟩))
        have hput := sortPut_perm entry.2 hnew
        refine (ih _ ?_).trans ((hput.append_right rest).trans hmiddle.symm)
        exact (((hput.append_right rest).trans hmiddle.symm).map Prod.fst).nodup_iff.mpr hk
  exact h [] distinct

theorem increasing_sorted (d : List (String × α)) : (sorted d).Pairwise fun x y => x.1 < y.1 := by
  have h : ∀ k : List (String × α), k.Pairwise (fun x y => x.1 < y.1) →
      (d.foldl (fun d entry => sortPut entry.1 entry.2 d) k).Pairwise fun x y => x.1 < y.1 := by
    induction d with
    | nil => exact fun _ hk => hk
    | cons entry rest ih => exact fun k hk => ih _ (increasing_sortPut hk _ _)
  exact h [] .nil

/-- Entries of distinct names are sorted alike in whatever order they come. -/
theorem sorted_eq_of_perm (distinct : (keys d).Nodup) (h : d.Perm d') : sorted d = sorted d' := by
  have distinct' : (keys d').Nodup := (h.map Prod.fst).nodup_iff.mp distinct
  refine ((sorted_perm distinct).trans (h.trans (sorted_perm distinct').symm)).eq_of_pairwise ?_
    (increasing_sorted d) (increasing_sorted d')
  exact fun x y _ _ hxy hyx => absurd (lt_trans hxy hyx) (lt_irrefl _)

end Dictionary

/-! ## Streams -/

/-- What a key is the hash of. -/
structure KeyStream where
  function : Function
  dependsOn : List (NamespaceId × Nat)
  overrides : List (String × Callable)

namespace KeyStream

def record (k : KeyStream) : Record := CacheKey.record k.function k.dependsOn k.overrides

/-- All numbers and lengths in the stream fit into eight bytes. -/
structure Fits (k : KeyStream) : Prop where
  number : IsWord k.function.id
  namespaces : IsWord k.dependsOn.length
  generations : ∀ entry ∈ k.dependsOn, IsWord entry.1 ∧ IsWord entry.2
  count : IsWord k.overrides.length
  overrides : ∀ entry ∈ k.overrides, IsWord entry.1.utf8ByteSize ∧ entry.2.Fits

instance (k : KeyStream) : Decidable k.Fits :=
  decidable_of_iff (IsWord k.function.id ∧ IsWord k.dependsOn.length ∧
      (∀ entry ∈ k.dependsOn, IsWord entry.1 ∧ IsWord entry.2) ∧ IsWord k.overrides.length ∧
      ∀ entry ∈ k.overrides, IsWord entry.1.utf8ByteSize ∧ entry.2.Fits)
    ⟨fun ⟨h₁, h₂, h₃, h₄, h₅⟩ => ⟨h₁, h₂, h₃, h₄, h₅⟩,
      fun h => ⟨h.number, h.namespaces, h.generations, h.count, h.overrides⟩⟩

/-- The stream is about known objects; no name is overridden twice, and by no gateway. -/
structure Sound (L : Ledger) (k : KeyStream) : Prop where
  function : L.functions k.function
  overrides : Callable.AllKnown L k.overrides
  plain : ∀ entry ∈ k.overrides, entry.2.unwrapped = entry.2
  distinct : (Dictionary.keys k.overrides).Nodup

variable {L M : Ledger} {k k' : KeyStream}

theorem Sound.mono (h : k.Sound L) (hle : L ≤ M) : k.Sound M :=
  ⟨hle.functions h.function, h.overrides.mono hle, h.plain, h.distinct⟩

theorem sortByName_perm {α : Type} (entries : List (String × α)) :
    (sortByName entries).Perm entries := List.mergeSort_perm _ _

/-- Equal streams tell of the same function, the same state of the same namespaces, and the same
replacements. -/
theorem eq_of_record_eq (fits : k.Fits) (fits' : k'.Fits) (sound : k.Sound L) (sound' : k'.Sound L)
    (finished : ∀ entry ∈ k.overrides, ∀ i g overrides d, entry.2 ≠ .bound i g overrides d)
    (h : k.record = k'.record) :
    k.function = k'.function ∧ k.dependsOn = k'.dependsOn ∧ k.overrides.Perm k'.overrides := by
  simp only [record, CacheKey.record, List.append_assoc] at h
  have h := List.append_cancel_left h
  obtain ⟨hid, h⟩ := Record.word_append_inj fits.number fits'.number h
  have hf := L.functions_unique sound.function sound'.function hid
  rw [hf] at h
  have h := List.append_cancel_left h
  obtain ⟨hlength, h⟩ := Record.word_append_inj fits.namespaces fits'.namespaces h
  obtain ⟨hdepends, h⟩ := Record.flatMap_append_inj hlength (fun a ha b hb s s' hs => by
    rw [List.append_assoc, List.append_assoc] at hs
    obtain ⟨hfst, hs⟩ := Record.word_append_inj (fits.generations a ha).1
      (fits'.generations b hb).1 hs
    obtain ⟨hsnd, hs⟩ := Record.word_append_inj (fits.generations a ha).2
      (fits'.generations b hb).2 hs
    exact ⟨Prod.ext hfst hsnd, hs⟩) h
  obtain ⟨hcount, h⟩ := Record.word_append_inj fits.count fits'.count h
  have hperm := sortByName_perm k.overrides
  have hperm' := sortByName_perm k'.overrides
  have hsorted : sortByName k.overrides = sortByName k'.overrides := by
    refine (Record.flatMap_append_inj
      (by rw [hperm.length_eq, hperm'.length_eq, hcount]) (fun a ha b hb s s' hs => ?_)
      (((List.append_nil _).trans h).trans (List.append_nil _).symm)).1
    have ha := hperm.mem_iff.mp ha
    have hb := hperm'.mem_iff.mp hb
    rw [List.append_assoc, List.append_assoc] at hs
    obtain ⟨hname, hs⟩ := Record.string_append_inj (fits.overrides a ha).1
      (fits'.overrides b hb).1 hs
    obtain ⟨hc, hs⟩ := Callable.identity_append_inj (sound.overrides a ha) (sound'.overrides b hb)
      (fits.overrides a ha).2 (fits'.overrides b hb).2 (sound.plain a ha) (sound'.plain b hb)
      (finished a ha) hs
    exact ⟨Prod.ext hname hc, hs⟩
  exact ⟨hf, hdepends, hperm.symm.trans (hsorted ▸ hperm')⟩

end KeyStream

/-- The streams have no two equal hashes for different bytes. -/
structure CollisionFree (streams : List KeyStream) : Prop where
  fits : ∀ k ∈ streams, k.Fits
  record_eq : ∀ k ∈ streams, ∀ k' ∈ streams, k.record.hash = k'.record.hash → k.record = k'.record

/-- Streams of the same bytes throughout. -/
theorem CollisionFree.of_record_eq {streams : List KeyStream} (fits : ∀ k ∈ streams, k.Fits)
    (h : ∀ k ∈ streams, ∀ k' ∈ streams, k.record = k'.record) : CollisionFree streams :=
  ⟨fits, fun k hk k' hk' _ => h k hk k' hk'⟩

namespace World

variable {w v : World} {f : Function} {overrides : List (String × Callable)}

/-- The namespaces that a pass can look into, with their generations. -/
def dependsOn (w : World) (f : Function) (overrides : List (String × Callable)) :
    List (NamespaceId × Nat) :=
  (w.reachable (f.home :: overrides.flatMap fun (_, c) => c.homes)).filterMap fun id =>
    (w.generations id).map fun n => (id, n)

/-- The stream of the key of a specialization. -/
def keyStream (w : World) (f : Function) (overrides : List (String × Callable)) : KeyStream :=
  ⟨f, w.dependsOn f overrides, overrides⟩

theorem cacheKey_eq (w : World) (f : Function) (overrides : List (String × Callable)) :
    w.cacheKey f overrides = ⟨(w.keyStream f overrides).record.hash, w.dependsOn f overrides⟩ := rfl

/-- Keys tell of nothing but namespaces. -/
theorem keyStream_congr (spaces : w.namespace? = v.namespace?)
    (length : w.namespaces.length = v.namespaces.length) (f : Function)
    (overrides : List (String × Callable)) : w.keyStream f overrides = v.keyStream f overrides := by
  have hgenerations : w.generations = v.generations := by
    funext i
    rw [generations, generations, spaces]
  rw [keyStream, keyStream, dependsOn, dependsOn, reachable_congr spaces length, hgenerations]

theorem Same.keyStream (h : w.Same v) (f : Function) (overrides : List (String × Callable)) :
    w.keyStream f overrides = v.keyStream f overrides :=
  keyStream_congr (funext h.spaces) (by simpa using congrArg List.length h.ids) f overrides

theorem mem_dependsOn {i : NamespaceId} {n : Nat} :
    (i, n) ∈ w.dependsOn f overrides ↔
      i ∈ w.reachable (f.home :: overrides.flatMap fun (_, c) => c.homes) ∧
        w.generations i = some n := by
  rw [dependsOn, List.mem_filterMap]
  constructor
  · rintro ⟨j, hj, hentry⟩
    obtain ⟨m, hm, he⟩ := Option.map_eq_some_iff.mp hentry
    obtain ⟨rfl, rfl⟩ := Prod.mk.inj he
    exact ⟨hj, hm⟩
  · rintro ⟨hi, hn⟩
    exact ⟨i, hi, by rw [hn]; rfl⟩

end World

end Graft
