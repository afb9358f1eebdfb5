import Graft.Artifact.Run
import Graft.Gateway.Specialize

/-!
# Twins

Two runs that take fresh numbers at different paces make things that differ in their numbers. A
renumbering says which numbers belong together. Functions, callables and bindings are twins when
nothing tells them apart but numbers that belong together; artifacts have no more to do with
numbers than that they have one.
-/

namespace Graft

/-! ## Artifacts -/

/-- Nothing but their numbers tells the artifacts apart. -/
structure Artifact.Alike (a b : Artifact) : Prop where
  definition : a.info.definition = b.info.definition
  callees : a.callees = b.callees
  fingerprint : a.fingerprint = b.fingerprint
  call : ∀ fuel args, a.call fuel args = b.call fuel args

namespace Artifact.Alike

variable {a b c : Artifact}

theorem refl (a : Artifact) : a.Alike a := ⟨rfl, rfl, rfl, fun _ _ => rfl⟩

theorem symm (h : a.Alike b) : b.Alike a :=
  ⟨h.definition.symm, h.callees.symm, h.fingerprint.symm, fun fuel args => (h.call fuel args).symm⟩

theorem trans (h : a.Alike b) (h' : b.Alike c) : a.Alike c :=
  ⟨h.definition.trans h'.definition, h.callees.trans h'.callees,
    h.fingerprint.trans h'.fingerprint, fun fuel args => (h.call fuel args).trans (h'.call fuel args)⟩

theorem name (h : a.Alike b) : a.name = b.name := by
  rw [Artifact.name, h.definition, Artifact.name]

end Artifact.Alike

/-! ## Renumberings -/

/-- Which numbers of functions, and which of namespaces, belong together on two sides. No number
belongs to two. -/
structure Renumbering where
  functions : Nat → Nat → Prop
  homes : NamespaceId → NamespaceId → Prop
  functions_iff : ∀ {m m' n n'}, functions m m' → functions n n' → (m = n ↔ m' = n')
  homes_iff : ∀ {i i' j j'}, homes i i' → homes j j' → (i = j ↔ i' = j')

namespace Renumbering

variable {ρ σ τ : Renumbering}

/-- Everything that belongs together in `ρ` does so in `σ`. -/
structure Le (ρ σ : Renumbering) : Prop where
  functions : ∀ {m m'}, ρ.functions m m' → σ.functions m m'
  homes : ∀ {i i'}, ρ.homes i i' → σ.homes i i'

instance : LE Renumbering := ⟨Le⟩

theorem le_refl (ρ : Renumbering) : ρ ≤ ρ := ⟨id, id⟩

theorem le_trans (h : ρ ≤ σ) (h' : σ ≤ τ) : ρ ≤ τ :=
  ⟨fun hm => h'.functions (h.functions hm), fun hi => h'.homes (h.homes hi)⟩

/-- Neither number belongs to that of a function. -/
def Fresh (ρ : Renumbering) (n n' : Nat) : Prop := ∀ m m', ρ.functions m m' → m ≠ n ∧ m' ≠ n'

/-- Neither number belongs to that of a namespace. -/
def FreshHome (ρ : Renumbering) (n n' : NamespaceId) : Prop :=
  ∀ i i', ρ.homes i i' → i ≠ n ∧ i' ≠ n'

/-- With a pair of new numbers, still no number belongs to two. -/
theorem pair_iff {r : Nat → Nat → Prop} {n n' : Nat}
    (unique : ∀ {a a' b b'}, r a a' → r b b' → (a = b ↔ a' = b'))
    (fresh : ∀ a a', r a a' → a ≠ n ∧ a' ≠ n') {a a' b b' : Nat}
    (ha : (a = n ∧ a' = n') ∨ r a a') (hb : (b = n ∧ b' = n') ∨ r b b') : a = b ↔ a' = b' := by
  rcases ha with ⟨rfl, rfl⟩ | ha
  · rcases hb with ⟨rfl, rfl⟩ | hb
    · exact ⟨fun _ => rfl, fun _ => rfl⟩
    · have hne := fresh _ _ hb
      exact ⟨fun h => absurd h.symm hne.1, fun h => absurd h.symm hne.2⟩
  · rcases hb with ⟨rfl, rfl⟩ | hb
    · have hne := fresh _ _ ha
      exact ⟨fun h => absurd h hne.1, fun h => absurd h hne.2⟩
    · exact unique ha hb

/-- One more pair of functions belongs together. -/
def withFunction (ρ : Renumbering) {n n' : Nat} (fresh : ρ.Fresh n n') : Renumbering where
  functions m m' := (m = n ∧ m' = n') ∨ ρ.functions m m'
  homes := ρ.homes
  functions_iff := pair_iff ρ.functions_iff fresh
  homes_iff := ρ.homes_iff

theorem le_withFunction {n n' : Nat} (fresh : ρ.Fresh n n') : ρ ≤ ρ.withFunction fresh :=
  ⟨.inr, id⟩

/-- One more pair of namespaces belongs together. -/
def withHome (ρ : Renumbering) {n n' : NamespaceId} (fresh : ρ.FreshHome n n') : Renumbering where
  functions := ρ.functions
  homes i i' := (i = n ∧ i' = n') ∨ ρ.homes i i'
  functions_iff := ρ.functions_iff
  homes_iff := pair_iff ρ.homes_iff fresh

theorem le_withHome {n n' : NamespaceId} (fresh : ρ.FreshHome n n') : ρ ≤ ρ.withHome fresh :=
  ⟨id, .inr⟩

end Renumbering

/-! ## Functions -/

/-- The functions differ at most in their numbers, and in that of their namespace as it is
renumbered. -/
structure Function.Kin (ρ : Renumbering) (f f' : Function) : Prop where
  definition : f.definition = f'.definition
  origin : f.origin = f'.origin
  home : ρ.homes f.home f'.home
  captures : f.captures = f'.captures
  fingerprint : f.fingerprint = f'.fingerprint

/-- Nothing tells the functions apart but numbers that belong together. -/
structure Function.Twin (ρ : Renumbering) (f f' : Function) : Prop extends f.Kin ρ f' where
  number : ρ.functions f.id f'.id

namespace Function

variable {ρ σ : Renumbering} {f f' : Function}

theorem Kin.mono (h : f.Kin ρ f') (hle : ρ ≤ σ) : f.Kin σ f' :=
  ⟨h.definition, h.origin, hle.homes h.home, h.captures, h.fingerprint⟩

theorem Twin.mono (h : f.Twin ρ f') (hle : ρ ≤ σ) : f.Twin σ f' :=
  ⟨h.toKin.mono hle, hle.functions h.number⟩

theorem Kin.name (h : f.Kin ρ f') : f.name = f'.name := by
  rw [Function.name, h.definition, Function.name]

theorem Kin.nameSpan (h : f.Kin ρ f') : f.nameSpan = f'.nameSpan := by
  rw [Function.nameSpan, h.definition, Function.nameSpan]

theorem Kin.params (h : f.Kin ρ f') : f.params = f'.params := by
  rw [Function.params, h.definition, Function.params]

theorem Kin.arity (h : f.Kin ρ f') : f.arity = f'.arity := by
  rw [Function.arity, h.definition, Function.arity]

theorem twin_self (hhome : ρ.homes f.home f.home) (hnumber : ρ.functions f.id f.id) :
    f.Twin ρ f := ⟨⟨rfl, rfl, hhome, rfl, rfl⟩, hnumber⟩

end Function

/-! ## Callables -/

mutual

/-- Nothing tells the callables apart but numbers that belong together, or that belong to artifacts
or gateways. -/
inductive Callable.Twin (ρ : Renumbering) : Callable → Callable → Prop
  | function {f f' : Function} : f.Twin ρ f' → Callable.Twin ρ (.function f) (.function f')
  | artifact {a a' : Artifact} : a.Alike a' → Callable.Twin ρ (.artifact a) (.artifact a')
  | native (n : Native) : Callable.Twin ρ (.native n) (.native n)
  | gateway {g g' : Gateway} : g.function.Twin ρ g'.function →
      Callable.Twin ρ (.gateway g) (.gateway g')
  | bound {i i' : Nat} {g g' : Gateway} {overrides overrides' : List (String × Callable)}
      (d : Digest) : g.function.Twin ρ g'.function → Callable.AllTwin ρ overrides overrides' →
      Callable.Twin ρ (.bound i g overrides d) (.bound i' g' overrides' d)

/-- Twins under the same names. -/
inductive Callable.AllTwin (ρ : Renumbering) :
    List (String × Callable) → List (String × Callable) → Prop
  | nil : Callable.AllTwin ρ [] []
  | cons {c c' : Callable} {rest rest' : List (String × Callable)} (name : String) :
      c.Twin ρ c' → Callable.AllTwin ρ rest rest' →
      Callable.AllTwin ρ ((name, c) :: rest) ((name, c') :: rest')

end

namespace Callable

/-- The functions in a callable. -/
def functions : Callable → List Function
  | .function f => [f]
  | .gateway g => [g.function]
  | .bound _ g overrides _ => g.function :: functionsAll overrides
  | .artifact _ | .native _ => []
where
  functionsAll : List (String × Callable) → List Function
    | [] => []
    | (_, c) :: rest => c.functions ++ functionsAll rest

/-- The artifacts that are given in a callable. -/
def artifacts : Callable → List Artifact
  | .artifact a => [a]
  | .bound _ _ overrides _ => artifactsAll overrides
  | .function _ | .gateway _ | .native _ => []
where
  artifactsAll : List (String × Callable) → List Artifact
    | [] => []
    | (_, c) :: rest => c.artifacts ++ artifactsAll rest

variable {ρ σ : Renumbering} {c c' : Callable}

mutual

theorem Twin.mono {c c' : Callable} (h : c.Twin ρ c') (hle : ρ ≤ σ) : c.Twin σ c' := by
  cases h with
  | function hf => exact .function (hf.mono hle)
  | artifact ha => exact .artifact ha
  | native n => exact .native n
  | gateway hg => exact .gateway (hg.mono hle)
  | bound d hg hall => exact .bound d (hg.mono hle) (hall.mono hle)

theorem AllTwin.mono {l l' : List (String × Callable)} (h : AllTwin ρ l l') (hle : ρ ≤ σ) :
    AllTwin σ l l' := by
  cases h with
  | nil => exact .nil
  | cons name hc hrest => exact .cons name (hc.mono hle) (hrest.mono hle)

end

mutual

theorem twin_self (c : Callable) (h : ∀ f ∈ c.functions, f.Twin ρ f) : c.Twin ρ c := by
  cases c with
  | function f => exact .function (h f (List.mem_singleton_self f))
  | artifact a => exact .artifact (.refl a)
  | native n => exact .native n
  | gateway g => exact .gateway (h g.function (List.mem_singleton_self _))
  | bound i g overrides d =>
      exact .bound d (h g.function List.mem_cons_self)
        (allTwin_self overrides fun f hf => h f (List.mem_cons_of_mem _ hf))

theorem allTwin_self (l : List (String × Callable)) (h : ∀ f ∈ functions.functionsAll l, f.Twin ρ f) :
    AllTwin ρ l l := by
  cases l with
  | nil => exact .nil
  | cons entry rest =>
      exact .cons entry.1 (twin_self entry.2 fun f hf => h f (List.mem_append_left _ hf))
        (allTwin_self rest fun f hf => h f (List.mem_append_right _ hf))

end

theorem Twin.name (h : c.Twin ρ c') : c.name = c'.name := by
  cases h with
  | function hf => exact hf.name
  | artifact ha => exact ha.name
  | native n => rfl
  | gateway hg => exact hg.name
  | bound d hg _ => exact hg.name

theorem Twin.kind (h : c.Twin ρ c') : c.kind = c'.kind := by cases h <;> rfl

theorem Twin.describe (h : c.Twin ρ c') : c.describe = c'.describe := by
  rw [Callable.describe, h.name, h.kind, Callable.describe]

theorem Twin.fingerprint (h : c.Twin ρ c') : c.fingerprint = c'.fingerprint := by
  cases h with
  | function hf => exact hf.fingerprint
  | artifact ha => exact ha.fingerprint
  | native n => rfl
  | gateway hg => exact hg.fingerprint
  | bound d _ _ => rfl

theorem Twin.plain? (h : c.Twin ρ c') : Option.Rel (Function.Twin ρ) c.plain? c'.plain? := by
  cases h with
  | function hf => exact .some hf
  | gateway hg => exact .some hg
  | artifact _ | native _ | bound _ _ _ => exact .none

theorem Twin.unwrapped (h : c.Twin ρ c') : c.unwrapped.Twin ρ c'.unwrapped := by
  cases h with
  | function hf => exact .function hf
  | artifact ha => exact .artifact ha
  | native n => exact .native n
  | gateway hg => exact .function hg
  | bound d hg hall => exact .bound d hg hall

namespace AllTwin

variable {l l' k k' : List (String × Callable)}

theorem keys (h : AllTwin ρ l l') : Dictionary.keys l = Dictionary.keys l' := by
  induction l generalizing l' with
  | nil => cases h; rfl
  | cons entry rest ih =>
      cases h with
      | cons name _ hrest => exact congrArg (name :: ·) (ih hrest)

theorem fingerprints (h : AllTwin ρ l l') :
    l.map (fun (n, c) => (n, c.fingerprint)) = l'.map fun (n, c) => (n, c.fingerprint) := by
  induction l generalizing l' with
  | nil => cases h; rfl
  | cons entry rest ih =>
      cases h with
      | cons name hc hrest =>
          rw [List.map_cons, List.map_cons, ih hrest]
          dsimp only
          rw [hc.fingerprint]

theorem isEmpty (h : AllTwin ρ l l') : l.isEmpty = l'.isEmpty := by cases h <;> rfl

theorem get? (h : AllTwin ρ l l') (name : String) :
    Option.Rel (Callable.Twin ρ) (Dictionary.get? name l) (Dictionary.get? name l') := by
  induction l generalizing l' with
  | nil => cases h; exact .none
  | cons entry rest ih =>
      cases h with
      | cons n hc hrest =>
          rw [Dictionary.get?, Dictionary.get?]
          split
          · exact .some hc
          · exact ih hrest

theorem append (h : AllTwin ρ l l') (h' : AllTwin ρ k k') : AllTwin ρ (l ++ k) (l' ++ k') := by
  induction l generalizing l' with
  | nil => cases h; exact h'
  | cons entry rest ih =>
      cases h with
      | cons n hc hrest => exact .cons n hc (ih hrest)

theorem sortPut {c c' : Callable} (hc : c.Twin ρ c') (name : String) (h : AllTwin ρ l l') :
    AllTwin ρ (Dictionary.sortPut name c l) (Dictionary.sortPut name c' l') := by
  induction l generalizing l' with
  | nil => cases h; exact .cons name hc .nil
  | cons entry rest ih =>
      cases h with
      | cons n hd hrest =>
          rw [Dictionary.sortPut, Dictionary.sortPut]
          split
          · exact .cons name hc (.cons n hd hrest)
          · split
            · exact .cons n hc hrest
            · exact .cons n hd (ih hrest)

theorem sorted (h : AllTwin ρ l l') :
    AllTwin ρ (Dictionary.sorted l) (Dictionary.sorted l') := by
  have hfold : ∀ k k', AllTwin ρ k k' →
      AllTwin ρ (l.foldl (fun d (n, a) => Dictionary.sortPut n a d) k)
        (l'.foldl (fun d (n, a) => Dictionary.sortPut n a d) k') := by
    induction l generalizing l' with
    | nil => cases h; exact fun _ _ hk => hk
    | cons entry rest ih =>
        cases h with
        | cons n hc hrest => exact fun k k' hk => ih hrest _ _ (hk.sortPut hc n)
  exact hfold [] [] .nil

theorem unwrapOverrides (h : AllTwin ρ l l') :
    AllTwin ρ (Graft.unwrapOverrides l) (Graft.unwrapOverrides l') := by
  induction l generalizing l' with
  | nil => cases h; exact .nil
  | cons entry rest ih =>
      cases h with
      | cons n hc hrest => exact .cons n hc.unwrapped (ih hrest)

end AllTwin

end Callable

/-! ## Bindings -/

/-- What names are bound to on two sides. -/
inductive Global.Twin (ρ : Renumbering) : Global → Global → Prop
  | constant (v : Value) : Global.Twin ρ (.constant v) (.constant v)
  | callable {c c' : Callable} : c.Twin ρ c' → Global.Twin ρ (.callable c) (.callable c')

theorem Global.Twin.mono {ρ σ : Renumbering} {g g' : Global} (h : g.Twin ρ g') (hle : ρ ≤ σ) :
    g.Twin σ g' := by
  cases h with
  | constant v => exact .constant v
  | callable hc => exact .callable (hc.mono hle)

/-- Namespaces that belong together are there on both sides or on neither, and bind the same names
to twins. -/
structure Linker.Twin (ρ : Renumbering) (env env' : Linker) : Prop where
  live : ∀ {i i'}, ρ.homes i i' → env.isLive i = env'.isLive i'
  lookup : ∀ {i i'}, ρ.homes i i' → ∀ name,
    Option.Rel (Global.Twin ρ) (env.lookup i name) (env'.lookup i' name)

end Graft
