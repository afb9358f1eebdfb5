import Graft.Proofs.Finished
import Graft.Proofs.Lockstep

/-!
# Nested activations

How many evaluations of function bodies stand inside one another is watched while a call runs; the
watching changes nothing. The limit of the namespace of the first function is never exceeded, and a
run that needs one more level fails, as long as no name is bound to a gateway with no substitutions
made ahead. Such a callable runs its function in a count of its own, so through it the limit is
exceeded.
-/

namespace Graft

open Correspondence (keeping)

/-- A world, with the number of activations that stand inside one another now, and the greatest such
number so far. -/
structure Watched where
  world : World
  now : Nat := 0
  most : Nat := 0

namespace Watched

/-- An activation begins. -/
def enter (s : Watched) : Watched := { s with now := s.now + 1, most := max s.most (s.now + 1) }

/-- An activation ends. -/
def leave (s : Watched) : Watched := { s with now := s.now - 1 }

/-- At level `n` of nesting, in a world that binds what `w₀` binds, and never beyond `limit`. -/
structure Within (w₀ : World) (limit n : Nat) (s : Watched) (w : World) : Prop where
  world : s.world = w
  same : w₀.Same w
  now : s.now = n
  most : s.most ≤ limit

variable {w₀ w : World} {limit n : Nat} {s : Watched}

theorem Within.enter (h : s.Within w₀ limit n w) (hn : n < limit) :
    s.enter.Within w₀ limit (n + 1) w where
  world := h.world
  same := h.same
  now := by simp [Watched.enter, h.now]
  most := by
    have hmost := h.most
    simp [Watched.enter, h.now]
    omega

theorem Within.leave (h : s.Within w₀ limit (n + 1) w) : s.leave.Within w₀ limit n w where
  world := h.world
  same := h.same
  now := by simp [Watched.leave, h.now]
  most := h.most

end Watched

namespace Observer

/-- The observer that counts activations, however they end. -/
def watching : Observer Watched where
  lift x s := ((x s.world).1, { s with world := (x s.world).2 })
  around x s := ((x s.enter).1, (x s.enter).2.leave)

/-- Calls a function and watches it. -/
def watch (f : Function) (args : List Value) (w : World) : Except Fault Value × Watched :=
  watching.call (watching.callBound ampleFuel) f args { world := w }

/-- The same where `levels` activations may stand inside one another, whatever the limit is. -/
def watchAt (levels limit : Nat) (f : Function) (args : List Value) (w : World) :
    Except Fault Value × Watched :=
  watching.callAt (watching.callBound ampleFuel) limit levels f args { world := w }

/-! ## Watching changes nothing -/

/-- Both observers bring a gateway to the same end, if they do so for what it runs as it is. -/
theorem callGateway_corresponds {σ τ : Type} {o : Observer σ} {o' : Observer τ}
    {k : Correspondence σ τ}
    (hlift : ∀ {α} {x : Act α}, Act.Transparent x → k.Runs Eq (o.lift x) (o'.lift x))
    {bound : BoundCall σ} {bound' : BoundCall τ} {g : Gateway} {ks : Keywords}
    (hplain : ∀ r, Request.ofKeywords g.function ks = .ok r → r.overrides = [] → ∀ args,
      k.Runs Eq (o.call bound g.function args) (o'.call bound' g.function args))
    (args : List Value) :
    k.Runs Eq (o.callGateway bound g args ks) (o'.callGateway bound' g args ks) := by
  have hget : Act.Transparent (get : Act World) := fun _ => .get
  rw [callGateway, callGateway]
  apply Correspondence.Runs.afterOutcome
  intro r hr
  apply (hlift hget).bind
  rintro w _ rfl
  split
  · next hempty =>
    split
    · apply (hlift (Act.transparent_trace _ _)).bind
      rintro _ _ rfl
      apply (hlift g.function.transparent_compile).bind
      rintro a _ rfl
      exact .pure rfl
    · apply Correspondence.Runs.afterOutcome
      intro args _
      apply (hplain r hr (List.isEmpty_iff.mp hempty) args).bind
      rintro v _ rfl
      exact .pure rfl
  · apply (hlift (g.function.transparent_specialize _ _)).bind
    rintro a _ rfl
    split
    · exact .pure rfl
    · apply Correspondence.Runs.afterOutcome
      intro args _
      apply (Correspondence.Runs.ofExcept _).bind
      rintro v _ rfl
      exact .pure rfl

section

variable {α : Type} {level inner : Watched → World → Prop}

theorem watching_lift {x : Act α} (hworld : ∀ {s w}, level s w → s.world = w)
    (hkeeps : ∀ {s w}, level s w → level { s with world := (x w).2 } (x w).2) :
    (keeping level).Runs Eq (watching.lift x) x := by
  intro s w hs
  have hafter := hkeeps hs
  obtain rfl := hworld hs
  show (keeping level).Ends Eq ((x s.world).1, { s with world := (x s.world).2 }) (x s.world)
  rcases hx : x s.world with ⟨e | a, w'⟩
  · rw [hx] at hafter
    exact .fault rfl hafter
  · rw [hx] at hafter
    exact .value rfl hafter

/-- Around a body the watched run goes one level further in and comes back, however the body ends. -/
theorem watching_around (henter : ∀ {s w}, level s w → inner s.enter w)
    (hleave : ∀ {s w}, inner s w → level s.leave w) {x : Run Watched Value} {y : Act Value}
    (h : (keeping inner).Runs Eq x y) : (keeping level).Runs Eq (watching.around x) y := by
  intro s w hs
  show (keeping level).Ends Eq ((x s.enter).1, (x s.enter).2.leave) (y w)
  obtain ⟨a, b, s', w', hx, hy, hab, hs'⟩ | ⟨e, s', w', hx, hy, hs'⟩ :=
    (h s.enter w (henter hs)).keeping_cases
  · rw [hx, hy]
    exact .value hab (hleave hs')
  · rw [hx, hy]
    exact .fault rfl (hleave hs')

end

/-- The watched run is in this world. -/
def Shows (s : Watched) (w : World) : Prop := s.world = w

theorem shows_lift {α : Type} (x : Act α) : (keeping Shows).Runs Eq (watching.lift x) x := by
  apply watching_lift
  · intro s w hs
    exact hs
  · intro s w _
    rfl

theorem watching_follows (deepest : Nat) :
    watching.Follows idle (fun _ => keeping Shows) (fun _ => True) deepest where
  looks _ := by
    apply (shows_lift get).mono
    rintro w _ rfl
    exact ⟨fun _ => rfl, fun _ _ => ⟨rfl, fun _ _ => trivial⟩⟩
  around _ h := watching_around (fun hs => hs) (fun hs => hs) h

theorem shows_callBound (fuel : Nat) (g : Gateway) (overrides : List (String × Callable))
    (args : List Value) :
    (keeping Shows).Runs Eq (watching.callBound fuel g overrides args)
      (idle.callBound fuel g overrides args) := by
  induction fuel generalizing g overrides args with
  | zero => exact .throw rfl
  | succ fuel ih =>
      rw [callBound, callBound]
      apply (callGateway_corresponds (fun {_ x} _ => shows_lift x) ?_ args).bind
      · rintro p _ rfl
        exact .ofOutcome _
      · intro r _ _ args
        apply Follows.call (k := fun _ => keeping Shows) (n := 0) watching_follows
        intro _ _ g overrides _ args _
        exact ih g overrides args

/-- A watched call ends as the call itself does, in the same world. -/
theorem watch_eq_call (f : Function) (args : List Value) (w : World) :
    ((watch f args w).1, (watch f args w).2.world) = (Callable.function f).call args w := by
  have hruns : (keeping Shows).Runs Eq (watching.call (watching.callBound ampleFuel) f args)
      (f.callWith (Gateway.callBound ampleFuel) args) := by
    rw [← idle_callBound, ← idle_call]
    apply Follows.call (k := fun _ => keeping Shows) (n := 0) watching_follows
    intro _ _ g overrides _ args _
    exact shows_callBound ampleFuel g overrides args
  show _ = f.callWith (Gateway.callBound ampleFuel) args w
  rw [watch]
  obtain ⟨a, _, s, _, hx, hy, rfl, rfl⟩ | ⟨e, s, _, hx, hy, rfl⟩ :=
    (hruns { world := w } w rfl).keeping_cases
  · rw [hx, hy]
  · rw [hx, hy]

end Observer

/-! ## Callables that count anew -/

/-- Whether a call of it starts a count of its own: a gateway with no substitutions made ahead runs its
function as it is, and as the first function of all. -/
def Callable.countsAnew : Callable → Bool
  | .bound _ _ [] _ => true
  | _ => false

namespace Request

/-- All that is overridden with nothing but overrides given are these. -/
theorem overrides_addAll_ofOverrides {f : Function} {seen : List String} {r q : Request}
    {overrides : List (String × Callable)}
    (h : addAll f seen r (.ofOverrides overrides) = .ok q) :
    q.overrides = r.overrides ++ overrides := by
  induction overrides generalizing seen r with
  | nil =>
      cases h
      simp
  | cons entry rest ih =>
      obtain ⟨name, c⟩ := entry
      rw [Keywords.ofOverrides, List.map_cons, addAll] at h
      split at h
      · cases h
      · cases hname : Control.ofName? name with
        | some control => simp [add, hname] at h
        | none =>
            simp only [add, hname] at h
            rw [ih h]
            simp

end Request

namespace Observer

variable {w₀ : World} {limit n : Nat}

theorem within_lift {α : Type} {x : Act α} (hx : Act.Transparent x) :
    (keeping (Watched.Within w₀ limit n)).Runs Eq (watching.lift x) x := by
  apply watching_lift
  · intro s w hs
    exact hs.world
  · intro s w hs
    exact ⟨rfl, hs.same.trans (hx.same w), hs.now, hs.most⟩

/-- A callable with substitutions made ahead is compiled, so that its call takes no activation. -/
theorem within_callBound {fuel : Nat} {g : Gateway} {overrides : List (String × Callable)}
    (hne : overrides ≠ []) (args : List Value) :
    (keeping (Watched.Within w₀ limit n)).Runs Eq (watching.callBound fuel g overrides args)
      (idle.callBound fuel g overrides args) := by
  cases fuel with
  | zero => exact .throw rfl
  | succ fuel =>
      rw [callBound, callBound]
      apply (callGateway_corresponds (fun hx => within_lift hx) ?_ args).bind
      · rintro p _ rfl
        exact .ofOutcome _
      · intro r hr hnone
        rw [Request.ofKeywords] at hr
        split at hr
        · next hadd =>
          cases hr
          have heq := Request.overrides_addAll_ofOverrides hadd
          rw [hnone, List.nil_append] at heq
          exact absurd heq.symm hne
        · cases hr

theorem within_follows
    (anew : ∀ id name c, w₀.lookup id name = some (.callable c) → c.countsAnew = false) :
    watching.Follows idle (fun n => keeping (Watched.Within w₀ limit n))
      (fun c => c.countsAnew = false) limit where
  looks n := by
    -- the worlds are the same, and bind what `w₀` binds
    intro s w hs
    obtain rfl := hs.world
    refine .value ⟨fun _ => rfl, fun id name => ⟨rfl, fun c hc => ?_⟩⟩ hs
    rw [← hs.same.lookup] at hc
    exact anew id name c hc
  around hn h := watching_around (fun hs => hs.enter hn) (fun hs => hs.leave) h

theorem deeper_around {x y : Run Watched Value}
    (h : (Correspondence.deeper limit).Runs Eq x y) :
    (Correspondence.deeper limit).Runs Eq (watching.around x) (watching.around y) := by
  rintro s _ rfl
  show (Correspondence.deeper limit).Ends Eq ((x s.enter).1, (x s.enter).2.leave)
    ((y s.enter).1, (y s.enter).2.leave)
  obtain ⟨e, hx, he⟩ | heq := Correspondence.deeper_eq h s.enter
  · rw [hx]
    exact .escape he
  · rw [heq]
    exact Correspondence.deeper_refl limit (fun t => ((y t).1, (y t).2.leave)) _ _ rfl

/-- A watched run with fewer levels does the same, or it exceeds the limit. -/
theorem watchAt_deeper {levels more : Nat} (hle : levels ≤ more) (limit : Nat) (f : Function)
    (args : List Value) (w : World) :
    (∃ e, (watchAt levels limit f args w).1 = .error e ∧ e.TooDeep limit) ∨
      watchAt levels limit f args w = watchAt more limit f args w := by
  have hfollows : watching.Follows watching (fun _ => .deeper limit) (fun _ => True)
      (0 + levels) := by
    refine ⟨fun _ => ?_, fun _ h => deeper_around h⟩
    apply (Correspondence.deeper_refl limit _).mono
    rintro w _ rfl
    exact ⟨fun _ => rfl, fun _ _ => ⟨rfl, fun _ _ => trivial⟩⟩
  apply Correspondence.deeper_eq
  apply hfollows.callAt (n := 0)
  · intro _ _ g overrides _ args _
    exact Correspondence.deeper_refl limit _
  · exact hle
  · intro _ _ f
    exact ⟨rfl, rfl⟩
  · exact Nat.le_refl (0 + levels)

/-- No more activations stand inside one another than there are levels. -/
theorem most_watchAt_le {w : World}
    (anew : ∀ id name c, w.lookup id name = some (.callable c) → c.countsAnew = false)
    (levels limit : Nat) (f : Function) (args : List Value) :
    (watchAt levels limit f args w).2.now = 0 ∧
      (watchAt levels limit f args w).2.most ≤ levels := by
  have hruns : (keeping (Watched.Within w levels 0)).Runs Eq
      (watching.callAt (watching.callBound ampleFuel) limit levels f args)
      (idle.callAt (idle.callBound ampleFuel) limit levels f args) := by
    apply (within_follows anew).callAt
    · intro _ _ g overrides _ args hknown
      apply within_callBound
      rintro rfl
      cases hknown
    · exact Nat.le_refl levels
    · intro hlt
      exact absurd hlt (Nat.lt_irrefl levels)
    · exact Nat.le_of_eq (Nat.zero_add levels)
  have hstart : Watched.Within w levels 0 { world := w } w :=
    ⟨rfl, .refl w, rfl, Nat.zero_le levels⟩
  have hafter := (hruns _ _ hstart).after
  exact ⟨hafter.now, hafter.most⟩

theorem watch_eq_watchAt {f : Function} {w : World} {home : Namespace} (hhome : w.home f = .ok home)
    (args : List Value) :
    watch f args w = watchAt home.maxRecursion home.maxRecursion f args w := by
  show (Run.ofOutcome (w.home f) >>= fun home : Namespace => watching.callAt
    (watching.callBound ampleFuel) home.maxRecursion home.maxRecursion f args) { world := w } = _
  rw [hhome]
  rfl

end Observer

/-! ## The limit -/

/-- The limit of the namespace of a function bounds how many activations stand inside one another
while the function runs, and a run that would go deeper under more levels fails instead. -/
theorem Function.call_nests_within_limit {f : Function} {w : World} {home : Namespace}
    (hhome : w.home f = .ok home)
    (anew : ∀ id name c, w.lookup id name = some (.callable c) → c.countsAnew = false)
    (args : List Value) :
    ((Observer.watch f args w).1, (Observer.watch f args w).2.world) =
        (Callable.function f).call args w ∧
      (Observer.watch f args w).2.now = 0 ∧
      (Observer.watch f args w).2.most ≤ home.maxRecursion ∧
      ∀ levels, home.maxRecursion < (Observer.watchAt levels home.maxRecursion f args w).2.most →
        ∃ e, ((Callable.function f).call args w).1 = .error e ∧ e.TooDeep home.maxRecursion := by
  have hmost := fun levels => Observer.most_watchAt_le anew levels home.maxRecursion f args
  rw [← Observer.watch_eq_call, Observer.watch_eq_watchAt hhome]
  refine ⟨rfl, (hmost _).1, (hmost _).2, ?_⟩
  intro levels hdeeper
  have hle : home.maxRecursion ≤ levels := (Nat.lt_of_lt_of_le hdeeper (hmost levels).2).le
  obtain htoo | heq := Observer.watchAt_deeper hle home.maxRecursion f args w
  · exact htoo
  · rw [← heq] at hdeeper
    exact absurd (hmost home.maxRecursion).2 (Nat.not_le_of_lt hdeeper)

namespace Pass

/-- The chain of three functions in a namespace that lets two stand inside one another. -/
def shallowWorld : World :=
  { chainWorld with namespaces := chainWorld.namespaces.map fun (id, ns) =>
      (id, { ns with maxRecursion := 2 }) }

theorem call_nests_within_limit_chain :
    (Observer.watchAt 3 2 chainFirst [.bool true] shallowWorld).2.most = 3 ∧
      (Observer.watch chainFirst [.bool true] shallowWorld).2.most ≤ 2 ∧
      ∃ e, ((Callable.function chainFirst).call [.bool true] shallowWorld).1 = .error e ∧
        e.TooDeep 2 := by
  have anew : ∀ id name c, shallowWorld.lookup id name = some (.callable c) →
      c.countsAnew = false := by
    intro id name c h
    simp only [World.lookup, World.namespace?, shallowWorld, chainWorld, List.map_cons,
      List.map_nil, List.find?_cons, List.find?_nil] at h
    split at h
    · simp only [Option.map_some, Option.bind_some, Namespace.get?, Dictionary.get?] at h
      split at h
      · cases h
        rfl
      · split at h
        · cases h
          rfl
        · split at h
          · cases h
            rfl
          · cases h
    · cases h
  have hdeeper : (Observer.watchAt 3 2 chainFirst [.bool true] shallowWorld).2.most = 3 := by
    decide +kernel
  have hwithin := Function.call_nests_within_limit (f := chainFirst) (w := shallowWorld) rfl anew
    [.bool true]
  refine ⟨hdeeper, hwithin.2.2.1, hwithin.2.2.2 3 ?_⟩
  show 2 < _
  rw [hdeeper]
  decide

/-- A text of two functions, the first of which calls the second under another name. -/
def restartText : SourceText := ⟨"m.fst", "fn f(x) { p(x) }\n@fs\nfn g(x) { x }\n"⟩

def restartOuter : Function := loadAt restartText 2 ⟨0, 16⟩

def restartInner : Function := loadAt restartText 3 ⟨17, 34⟩

/-- That name is bound to the second function with no substitutions made ahead, and no two functions
may stand inside one another. -/
def restartWorld : World :=
  { nextId := 6
    namespaces := [(1, { name := "m"
                         globals := [("f", .callable (.function restartOuter)),
                           ("g", .callable (.gateway ⟨4, restartInner⟩)),
                           ("p", .callable (Gateway.bind ⟨4, restartInner⟩ 5 []))]
                         maxRecursion := 1 })] }

/-- Through a callable that counts anew more activations stand inside one another than the limit
says. -/
theorem call_not_nests_within_limit :
    ∃ home, restartWorld.home restartOuter = .ok home ∧
      ((Callable.function restartOuter).call [.bool true] restartWorld).1 = .ok (.bool true) ∧
      home.maxRecursion < (Observer.watch restartOuter [.bool true] restartWorld).2.most := by
  refine ⟨_, rfl, eq_ok_of_isBool (by decide +kernel), ?_⟩
  show 1 < _
  decide +kernel

end Pass

end Graft
