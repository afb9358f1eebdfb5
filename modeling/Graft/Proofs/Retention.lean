import Graft.Proofs.Engines
import Graft.Proofs.Staleness

/-!
# What a cache keeps, and for how long

Look-ups, insertions and clearings come in any order, and between them namespaces are changed and
dropped. An entry whose key is not stale leaves the cache only when it is cleared or when something
is kept under the same digest; an insertion lets every stale entry go, and a stale key is not kept
at all. So a look-up gives what was kept last under its digest, as long as the key of that is not
stale.
-/

namespace Graft

/-! ## Histories -/

/-- What can happen to a cache and to the namespaces that its keys depend on. -/
inductive CacheEvent where
  | get (key : CacheKey)
  | insert (key : CacheKey) (a : Artifact)
  | clear
  | change (c : Change)

namespace CacheEvent

def after : CacheEvent → World → World
  | get key, w => { w with cache := (w.cache.get key).2 }
  | insert key a, w => { w with cache := w.cache.insert w.generations key a }
  | clear, w => { w with cache := w.cache.clear }
  | change c, w => c.after w

/-- The world after some events, the first one first. -/
def afterAll (events : List CacheEvent) (w : World) : World := events.foldl (fun w e => e.after w) w

/-- What a look-up gives. -/
def answer? : CacheEvent → World → Option (Option Artifact)
  | get key, w => some (w.cache.get key).1
  | _, _ => none

/-- What the look-ups among some events give, in their order. -/
def answers : List CacheEvent → World → List (Option Artifact)
  | [], _ => []
  | e :: rest, w => (e.answer? w).toList ++ answers rest (e.after w)

/-- Keeps something under a digest: an insertion of a key that is not stale. -/
def Keeps (digest : Digest) (w : World) : CacheEvent → Prop
  | insert key _ => key.digest = digest ∧ key.isStale w.generations = false
  | _ => False

/-- Nothing is cleared, and nothing is kept under a digest. -/
def Spare (digest : Digest) : List CacheEvent → World → Prop
  | [], _ => True
  | e :: rest, w => e ≠ clear ∧ ¬ e.Keeps digest w ∧ Spare digest rest (e.after w)

/-- Among the events since `w`, this is what was kept last under its digest. -/
def KeptLast (events : List CacheEvent) (w : World) (key : CacheKey) (a : Artifact) : Prop :=
  ∃ before later, events = before ++ insert key a :: later ∧
    key.isStale (afterAll before w).generations = false ∧
    Spare key.digest later (afterAll (before ++ [insert key a]) w)

variable {w v : World} {e : CacheEvent} {events later : List CacheEvent} {digest : Digest}

theorem afterAll_append (events later : List CacheEvent) (w : World) :
    afterAll (events ++ later) w = afterAll later (afterAll events w) := List.foldl_append

theorem spare_append : Spare digest (events ++ later) w ↔
    Spare digest events w ∧ Spare digest later (afterAll events w) := by
  induction events generalizing w with
  | nil => simp [Spare, afterAll]
  | cons e rest ih => simp [Spare, ih, afterAll, and_assoc]

end CacheEvent

/-! ## Stale keys stay stale -/

namespace CacheKey

theorem isStale_eq_false_iff {key : CacheKey} {now : Generations} :
    key.isStale now = false ↔ ∀ entry ∈ key.dependsOn, now entry.1 = some entry.2 := by
  simp [isStale]

end CacheKey

namespace World.Aged

variable {u v w : World} {m n : Nat} {key : CacheKey}

/-- Whoever is not stale in the end was not stale on the way. -/
theorem isStale_between (h : u.Aged m v) (h' : v.Aged n w)
    (hu : key.isStale u.generations = false) (hw : key.isStale w.generations = false) :
    key.isStale v.generations = false := by
  rw [CacheKey.isStale_eq_false_iff] at hu hw ⊢
  rintro ⟨i, generation⟩ hentry
  obtain ⟨ns, hns, hfirst⟩ := generations_eq_some.mp (hu _ hentry)
  obtain ⟨ns'', hns'', hlast⟩ := generations_eq_some.mp (hw _ hentry)
  cases hv : v.namespace? i with
  | none => simp [h'.gone hv] at hns''
  | some ns' =>
      have hle := (h.counted hns hv).1
      have hle' := (h'.counted hv hns'').1
      apply generations_eq_some.mpr
      exact ⟨ns', hv, by omega⟩

/-- Events of a cache touch namespaces by changes only. -/
theorem event (e : CacheEvent) (w : World) : ∃ n, w.Aged n (e.after w) := by
  cases e with
  | change c => exact ⟨1, after c w⟩
  | _ => exact ⟨0, fun hi => hi, fun hns hns' => (refl w).counted hns hns'⟩

theorem events (events : List CacheEvent) (w : World) :
    ∃ n, w.Aged n (CacheEvent.afterAll events w) := by
  induction events generalizing w with
  | nil => exact ⟨0, refl w⟩
  | cons e rest ih =>
      obtain ⟨m, hm⟩ := event e w
      obtain ⟨n, hn⟩ := ih (e.after w)
      exact ⟨m + n, hm.trans hn⟩

end World.Aged

/-! ## One event -/

namespace Cache

variable {c : Cache} {key : CacheKey} {now : Generations} {a : Artifact}
  {entry : CacheKey × Artifact}

/-- No two entries of a cache have one digest. -/
def Unambiguous (c : Cache) : Prop := (c.entries.map fun entry => entry.1.digest).Nodup

theorem mem_insert_iff : entry ∈ (c.insert now key a).entries ↔
    entry = (key, a) ∧ key.isStale now = false ∨
      entry ∈ c.entries ∧ entry.1.isStale now = false ∧
        (entry.1.digest = key.digest → key.isStale now = true) := by
  unfold insert
  cases hstale : key.isStale now <;> simp
  tauto

theorem get_entries (c : Cache) (key : CacheKey) : (c.get key).2.entries = c.entries := by
  cases h : c.find? key <;> simp [get, h]

theorem Unambiguous.filter (h : c.Unambiguous) (p : CacheKey × Artifact → Bool) :
    ((c.entries.filter p).map fun entry => entry.1.digest).Nodup :=
  h.sublist (List.filter_sublist.map _)

theorem Unambiguous.insert (h : c.Unambiguous) (now : Generations) (key : CacheKey) (a : Artifact) :
    (c.insert now key a).Unambiguous := by
  unfold Unambiguous Cache.insert
  cases key.isStale now with
  | true => exact h.filter _
  | false =>
      simp only [Bool.false_eq_true, if_false, List.filter_filter, List.map_cons, List.nodup_cons]
      refine ⟨?_, h.filter _⟩
      -- what had the digest of the new entry was let go
      simp +contextual

/-- In an unambiguous cache, a look-up gives an entry exactly if it is there. -/
theorem Unambiguous.find?_eq_some_iff (h : c.Unambiguous) :
    c.find? key = some a ↔ ∃ entry ∈ c.entries, entry.1.digest = key.digest ∧ entry.2 = a := by
  refine ⟨mem_of_find?, ?_⟩
  rintro ⟨entry, hentry, hdigest, rfl⟩
  cases hfind : c.find? key with
  | none =>
      rw [find?, Option.map_eq_none_iff, List.find?_eq_none] at hfind
      exact absurd (by simpa using hdigest) (hfind entry hentry)
  | some b =>
      obtain ⟨other, hother, hsame, rfl⟩ := mem_of_find? hfind
      rw [List.inj_on_of_nodup_map h hother hentry (hsame.trans hdigest.symm)]

end Cache

namespace CacheEvent

variable {w v : World} {e : CacheEvent} {events later : List CacheEvent} {digest : Digest}
  {entry : CacheKey × Artifact} {key : CacheKey} {a : Artifact}

theorem unambiguous_after (e : CacheEvent) (h : w.cache.Unambiguous) :
    (e.after w).cache.Unambiguous := by
  cases e with
  | get key => simpa [after, Cache.Unambiguous, Cache.get_entries] using h
  | insert key a => exact h.insert _ key a
  | clear => exact List.nodup_nil
  | change c => cases c <;> exact h

theorem unambiguous_afterAll (events : List CacheEvent) (h : w.cache.Unambiguous) :
    (afterAll events w).cache.Unambiguous := by
  induction events generalizing w with
  | nil => exact h
  | cons e rest ih => exact ih (unambiguous_after e h)

theorem entries_change (c : Change) (w : World) :
    ((change c).after w).cache.entries = w.cache.entries := by cases c <;> rfl

/-- An entry that is not stale only leaves when all is cleared, or something is kept under its
digest. -/
theorem mem_after (h : entry ∈ w.cache.entries) (hlive : entry.1.isStale w.generations = false)
    (hclear : e ≠ clear) (hkeeps : ¬ e.Keeps entry.1.digest w) :
    entry ∈ (e.after w).cache.entries := by
  cases e with
  | get key => simpa [after, Cache.get_entries] using h
  | clear => exact absurd rfl hclear
  | change c => rwa [entries_change]
  | insert key a =>
      apply Cache.mem_insert_iff.mpr
      refine .inr ⟨h, hlive, fun hsame => ?_⟩
      simpa [Keeps, hsame] using hkeeps

/-- What is there after an event was there before, unless the event brought it. -/
theorem mem_of_after (h : entry ∈ (e.after w).cache.entries) :
    e = insert entry.1 entry.2 ∧ entry.1.isStale w.generations = false ∨
      entry ∈ w.cache.entries ∧ e ≠ clear ∧ ¬ e.Keeps entry.1.digest w := by
  cases e with
  | get key =>
      right
      rw [after, Cache.get_entries] at h
      exact ⟨h, by simp, by simp [Keeps]⟩
  | clear => simp [after, Cache.clear] at h
  | change c =>
      right
      rw [entries_change] at h
      exact ⟨h, by simp, by simp [Keeps]⟩
  | insert key a =>
      rcases Cache.mem_insert_iff.mp h with ⟨rfl, hlive⟩ | ⟨hmem, -, hspared⟩
      · exact .inl ⟨rfl, hlive⟩
      · refine .inr ⟨hmem, by simp, ?_⟩
        rintro ⟨hdigest, hlive⟩
        simp [hspared hdigest.symm] at hlive

/-! ## Histories of events -/

/-- As long as it is not stale, an entry stays through all events that spare its digest. -/
theorem mem_afterAll (h : entry ∈ w.cache.entries) (hlive : entry.1.isStale w.generations = false)
    (hspare : Spare entry.1.digest later w)
    (hend : entry.1.isStale (afterAll later w).generations = false) :
    entry ∈ (afterAll later w).cache.entries := by
  induction later generalizing w with
  | nil => exact h
  | cons e rest ih =>
      obtain ⟨hclear, hkeeps, hrest⟩ := hspare
      obtain ⟨m, hm⟩ := World.Aged.event e w
      obtain ⟨n, hn⟩ := World.Aged.events rest (e.after w)
      -- what is not stale in the end was not stale after this event either
      exact ih (mem_after h hlive hclear hkeeps) (hm.isStale_between hn hlive hend) hrest hend

/-- What is there in the end is what was kept last under its digest. -/
theorem keptLast_of_mem (hnew : w.cache.entries = [])
    (h : entry ∈ (afterAll events w).cache.entries) : KeptLast events w entry.1 entry.2 := by
  -- from the last event back: it brought the entry, or it spared its digest
  induction events using List.reverseRecOn with
  | nil => simp [afterAll, hnew] at h
  | append_singleton events e ih =>
      rw [afterAll_append] at h
      rcases mem_of_after h with ⟨rfl, hlive⟩ | ⟨hmem, hclear, hkeeps⟩
      · exact ⟨events, [], rfl, hlive, trivial⟩
      · obtain ⟨before, later, rfl, hlive, hspare⟩ := ih hmem
        refine ⟨before, later ++ [e], by simp, hlive,
          spare_append.mpr ⟨hspare, hclear, ?_, trivial⟩⟩
        simpa [afterAll_append, afterAll] using hkeeps

/-- What was kept last under its digest is there in the end, unless it is stale by then. -/
theorem KeptLast.mem (h : KeptLast events w key a)
    (hend : key.isStale (afterAll events w).generations = false) :
    (key, a) ∈ (afterAll events w).cache.entries := by
  obtain ⟨before, later, rfl, hlive, hspare⟩ := h
  have hsplit : before ++ insert key a :: later = (before ++ [insert key a]) ++ later := by simp
  rw [hsplit, afterAll_append] at hend ⊢
  refine mem_afterAll ?_ ?_ hspare hend
  · rw [afterAll_append]
    exact Cache.mem_insert_iff.mpr (.inl ⟨rfl, hlive⟩)
  · -- the insertion itself changes no namespace
    rw [afterAll_append]
    exact hlive

/-- Every look-up is counted once, as a hit exactly if it gives something. -/
theorem counts_afterAll (events : List CacheEvent) (w : World) :
    (afterAll events w).cache.hits = w.cache.hits + (answers events w).countP Option.isSome ∧
      (afterAll events w).cache.misses =
        w.cache.misses + (answers events w).countP Option.isNone := by
  induction events generalizing w with
  | nil => simp [afterAll, answers]
  | cons e rest ih =>
      obtain ⟨hhits, hmisses⟩ := ih (e.after w)
      have hafter : afterAll (e :: rest) w = afterAll rest (e.after w) := rfl
      rw [hafter, hhits, hmisses, answers, List.countP_append, List.countP_append]
      cases e with
      | get key =>
          cases hfind : w.cache.find? key <;> simp [after, answer?, Cache.get, hfind] <;> omega
      | insert key a =>
          cases hstale : key.isStale w.generations <;> simp [after, answer?, Cache.insert, hstale]
      | clear => simp [after, answer?, Cache.clear]
      | change c => cases c <;> simp [after, answer?, Change.after, World.define, World.remove,
          World.drop, World.update]

/-- A cache that starts empty, after any events: an insertion leaves nothing stale and keeps no
stale key; what is not stale only leaves when all is cleared or something is kept under its digest;
a look-up gives what was kept last under the digest, as long as that is not stale, and never
anything else; and every look-up is counted, as a hit exactly if it gives something. -/
theorem cache_keeps_live (w : World) (events : List CacheEvent) (hnew : w.cache = {}) :
    let v := afterAll events w
    (∀ key a, ∀ entry ∈ ((insert key a).after v).cache.entries,
        entry.1.isStale ((insert key a).after v).generations = false) ∧
      (∀ key a, key.isStale v.generations = true →
        ((insert key a).after v).cache.entries ⊆ v.cache.entries) ∧
      (∀ e : CacheEvent, ∀ entry ∈ v.cache.entries, entry.1.isStale v.generations = false →
        entry ∉ (e.after v).cache.entries →
          e = clear ∨ ∃ key a, e = insert key a ∧ key.digest = entry.1.digest ∧
            key.isStale v.generations = false) ∧
      (∀ key a, KeptLast events w key a → key.isStale v.generations = false →
        ∀ k : CacheKey, k.digest = key.digest → (v.cache.get k).1 = some a) ∧
      (∀ k a, (v.cache.get k).1 = some a →
        ∃ key : CacheKey, key.digest = k.digest ∧ KeptLast events w key a) ∧
      v.cache.hits + v.cache.misses = (answers events w).length ∧
      v.cache.hits = (answers events w).countP Option.isSome := by
  intro v
  have hunambiguous : v.cache.Unambiguous := by
    apply unambiguous_afterAll
    simp [hnew, Cache.Unambiguous]
  obtain ⟨hhits, hmisses⟩ := counts_afterAll events w
  simp only [hnew, Nat.zero_add] at hhits hmisses
  refine ⟨?fresh, ?stale, ?leaves, ?found, ?last, ?counted, hhits⟩
  case fresh =>
    intro key a entry hentry
    rcases Cache.mem_insert_iff.mp hentry with ⟨rfl, hlive⟩ | ⟨-, hlive, -⟩
    · exact hlive
    · exact hlive
  case stale =>
    intro key a hstale entry hentry
    rcases Cache.mem_insert_iff.mp hentry with ⟨rfl, hlive⟩ | ⟨hmem, -⟩
    · simp [hstale] at hlive
    · exact hmem
  case leaves =>
    intro e entry hentry hlive hgone
    by_contra hnone
    rw [not_or] at hnone
    refine hgone (mem_after hentry hlive hnone.1 fun hkeeps => hnone.2 ?_)
    cases e with
    | insert key a => exact ⟨key, a, rfl, hkeeps⟩
    | _ => exact hkeeps.elim
  case found =>
    intro key a hkept hlive k hk
    rw [Cache.get_fst, hunambiguous.find?_eq_some_iff]
    exact ⟨(key, a), hkept.mem hlive, hk.symm, rfl⟩
  case last =>
    intro k a hget
    rw [Cache.get_fst] at hget
    obtain ⟨entry, hentry, hdigest, rfl⟩ := Cache.mem_of_find? hget
    exact ⟨entry.1, hdigest, keptLast_of_mem (by simp [hnew]) hentry⟩
  case counted =>
    rw [hhits, hmisses, List.countP_eq_length_filter, List.countP_eq_length_filter]
    simpa using (List.length_eq_length_filter_add (l := answers events w) Option.isSome).symm

/-- Keys of the namespace of the chain before and after its last function is defined anew. -/
def olderKey : CacheKey := ⟨⟨[1]⟩, [(1, 0)]⟩

def newerKey : CacheKey := ⟨⟨[2]⟩, [(1, 1)]⟩

/-- The first entry goes stale; it is still found until the second one is kept. -/
def replacing : List CacheEvent :=
  [insert olderKey default, change (.define 1 "g" (.callable (.native (.math .sqrt)))),
    get olderKey, insert newerKey default, get olderKey, get newerKey]

theorem cache_keeps_live_replacing :
    Pass.chainWorld.cache = {} ∧
      KeptLast replacing Pass.chainWorld newerKey default ∧
      newerKey.isStale (afterAll replacing Pass.chainWorld).generations = false ∧
      ((afterAll replacing Pass.chainWorld).cache.get newerKey).1 = some default ∧
      (afterAll replacing Pass.chainWorld).cache.hits = 2 ∧
      (afterAll replacing Pass.chainWorld).cache.misses = 1 := by
  have hkept : KeptLast replacing Pass.chainWorld newerKey default :=
    ⟨replacing.take 3, replacing.drop 4, rfl, rfl, by simp, id, by simp, id, trivial⟩
  obtain ⟨-, -, -, hfound, -, hcounted, hhits⟩ :=
    cache_keeps_live Pass.chainWorld replacing rfl
  have hanswers : answers replacing Pass.chainWorld = [some default, none, some default] := rfl
  rw [hanswers] at hcounted hhits
  simp at hcounted hhits
  exact ⟨rfl, hkept, rfl, hfound newerKey default hkept rfl newerKey rfl, hhits, by omega⟩

end CacheEvent

end Graft
