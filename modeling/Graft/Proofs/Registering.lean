import Graft.Proofs.Idle
import Graft.Proofs.Redirecting
import Graft.Proofs.Restoring
import Graft.Proofs.Strictness

/-!
# What a pass registers

A pass comes to functions along calls of bound names, and binds a key for every such call on the
way: the alias of the name if the name is overridden, and the name itself if a function is bound to
it. After the pass exactly these keys are recorded, each once, with what the table held for it
before the pass, and exactly the overridden names among them count as matched.

A function that is bound to a name is met once. When another call of the name is met, an artifact is
bound to it; but then the name is recorded, and a name is recorded only after the pass over its
function, whose calls have left their records.
-/

namespace Graft

variable {table : Substitution} {w : World} {f g : Function}

/-- Names that are called in a source are no aliases. -/
theorem Function.plain_of_mem_sourceCalls {n : String} (h : n ∈ f.sourceCalls) : PlainName n := by
  rw [sourceCalls] at h
  split at h
  · next d span rest hunit => exact plainCalls_of_extract hunit d span rest rfl n h
  · exact absurd h List.not_mem_nil

/-- What a pass over `f` binds for a call of `symbol`: the alias of a name that is overridden, or a
name to which a function is bound. -/
def Function.Binds (table : Substitution) (w : World) (f : Function) (home : NamespaceId)
    (key symbol : String) : Prop :=
  ∃ g, f.Visits table w g ∧ g.home = home ∧ symbol ∈ g.sourceCalls ∧
    ((Dictionary.get? symbol table).isSome ∧ (w.lookup home symbol).isSome ∧
        key = overrideAlias symbol ∨
      Dictionary.get? symbol table = none ∧ key = symbol ∧
        ∃ c h, w.lookup home symbol = some (.callable c) ∧ c.plain? = some h)

/-- A key is bound for calls of one name only. -/
theorem Function.Binds.symbol_eq {home : NamespaceId} {key m n : String}
    (hm : f.Binds table w home key m) (hn : f.Binds table w home key n) : m = n := by
  obtain ⟨g, -, -, hcalls, ⟨-, -, hkey⟩ | ⟨-, hkey, -⟩⟩ := hm <;>
    obtain ⟨k, -, -, hcalls', ⟨-, -, hkey'⟩ | ⟨-, hkey', -⟩⟩ := hn
  · exact overrideAlias_inj (hkey.symm.trans hkey')
  · exact absurd (hkey'.symm.trans hkey) (plain_of_mem_sourceCalls hcalls' m)
  · exact absurd (hkey.symm.trans hkey') (plain_of_mem_sourceCalls hcalls n)
  · exact hkey.symm.trans hkey'

/-- A pass over `f` comes to a call of the overridden name where it is bound. -/
def Function.Matches (table : Substitution) (w : World) (f : Function) (n : String) : Prop :=
  (Dictionary.get? n table).isSome ∧
    ∃ g, f.Visits table w g ∧ n ∈ g.sourceCalls ∧ (w.lookup g.home n).isSome

namespace Pass

variable {debug : Bool} {callee : Function → Pass Artifact} {id : NamespaceId} {name : String}
  {names : List String} {isolation : Isolation} {s t u : State}

/-! ## What holds of every state of a pass -/

/-- What every state has in common that a pass in the world `w` comes to. -/
structure State.Ordinary (isolation : Isolation) (w : World) (s : State) : Prop where
  rests : s.Rests w
  covers : State.Covers (.start isolation w) s
  remembers : s.Remembers (.ofIsolation isolation) w
  undoes : s.Undoes w

namespace State.Ordinary

theorem start (isolation : Isolation) (w : World) :
    State.Ordinary isolation w (.start isolation w) where
  rests := .start (.refl w) isolation
  covers _ _ _ := rfl
  remembers := .start _ w
  undoes := .start w _

theorem steady (isolation : Isolation) (w : World) :
    State.Steady (State.Ordinary isolation w) where
  of_alike hs h :=
    ⟨(State.Rests.steady w).of_alike hs.rests h, (State.Covers.steady _).of_alike hs.covers h,
      hs.remembers.of_alike h, hs.undoes.of_alike h⟩
  replacement id name r hs :=
    ⟨(State.Rests.steady w).replacement id name r hs.rests,
      (State.Covers.steady _).replacement id name r hs.covers,
      hs.remembers.install id _ name _, hs.undoes.install id _ name _⟩
  artifact id name a hs ht hbound :=
    ⟨(State.Rests.steady w).artifact id name a hs.rests ht.rests hbound,
      (State.Covers.steady _).artifact id name a hs.covers ht.covers hbound,
      ht.remembers.install id name name _, ht.undoes.install id name name _⟩

theorem isSome_lookup (h : s.Ordinary isolation w) (hname : PlainName name) :
    (s.lookup id name).isSome = (w.lookup id name).isSome := by
  rw [h.covers id name hname, State.lookup_start]

/-- A name that is not recorded is bound as in the world. -/
theorem lookup_of_free (h : s.Ordinary isolation w) (hfree : s.registry.isRecorded id name ≠ true) :
    s.lookup id name = w.lookup id name := by
  have hheld := h.remembers.held id name hfree
  have hkin := h.remembers.kin
  have hundoes := h.undoes
  rw [State.Undoes] at hundoes
  rw [State.lookup, SymbolTable.lookup, hheld]
  cases isolation with
  | separate =>
      rcases htable : s.registry.table with entries | _
      · rw [htable] at hundoes
        exact hundoes.lookup id name
      · rw [htable] at hkin
        cases hkin
  | shared =>
      rcases htable : s.registry.table with entries | _
      · rw [htable] at hkin
        cases hkin
      · rw [htable] at hheld
        have hworld : s.world.lookup id name = w.lookup id name := hheld
        rw [hworld]
        exact Option.or_self

end State.Ordinary

/-! ## What calls have left -/

/-- A call of the name in the namespace has left its record. -/
def State.Met (table : Substitution) (w : World) (s : State) (id : NamespaceId) (n : String) :
    Prop :=
  ((Dictionary.get? n table).isSome → (w.lookup id n).isSome →
      s.registry.isRecorded id (overrideAlias n) = true ∧ n ∈ s.matched) ∧
    (Dictionary.get? n table = none → ∀ c h, w.lookup id n = some (.callable c) →
      c.plain? = some h → s.registry.isRecorded id n = true)

/-- All calls in the source of the function have left their records. -/
def State.Handled (table : Substitution) (w : World) (s : State) (g : Function) : Prop :=
  ∀ n ∈ g.sourceCalls, s.Met table w g.home n

/-- What was recorded stays recorded. -/
structure State.Grows (s t : State) : Prop where
  recorded : ∀ id key, s.registry.isRecorded id key = true → t.registry.isRecorded id key = true
  matched : ∀ n ∈ s.matched, n ∈ t.matched

namespace State.Grows

theorem refl (s : State) : s.Grows s := ⟨fun _ _ h => h, fun _ h => h⟩

theorem trans (h : s.Grows t) (h' : t.Grows u) : s.Grows u :=
  ⟨fun id key hr => h'.recorded id key (h.recorded id key hr),
    fun n hn => h'.matched n (h.matched n hn)⟩

theorem of_alike (h : s.Alike t) (hold : ∀ n ∈ s.matched, n ∈ t.matched) : s.Grows t :=
  ⟨fun _ _ hr => by rwa [h.registry], hold⟩

theorem install (s : State) (id : NamespaceId) (key symbol : String) (g : Global) :
    s.Grows (s.install id key symbol g) :=
  ⟨fun i n hr => (State.isRecorded_install key symbol g i n).mpr (.inr hr), fun _ hn => hn⟩

theorem met {n : String} (h : s.Grows t) (hs : s.Met table w id n) : t.Met table w id n :=
  ⟨fun hr hl => ⟨h.recorded _ _ (hs.1 hr hl).1, h.matched n (hs.1 hr hl).2⟩,
    fun hr c k hl hc => h.recorded _ _ (hs.2 hr c k hl hc)⟩

theorem handled (h : s.Grows t) (hs : s.Handled table w g) : t.Handled table w g :=
  fun n hn => h.met (hs n hn)

end State.Grows

/-- What a pass over `f` has recorded so far is what it binds, and the calls of a function have left
their records before a name to which it was bound is recorded. -/
structure State.Exact (table : Substitution) (w : World) (f : Function) (s : State) : Prop where
  entries : ∀ entry ∈ s.registry.replaced, f.Binds table w entry.home entry.key entry.symbol
  matched : ∀ n ∈ s.matched, f.Matches table w n
  handled : ∀ id n c h, PlainName n → s.registry.isRecorded id n = true →
    w.lookup id n = some (.callable c) → c.plain? = some h → s.Handled table w h

namespace State.Exact

theorem of_alike (h : s.Exact table w f) (ha : s.Alike t) (hold : ∀ n ∈ s.matched, n ∈ t.matched)
    (hnew : ∀ n ∈ t.matched, n ∈ s.matched ∨ f.Matches table w n) : t.Exact table w f where
  entries := by
    rw [ha.registry]
    exact h.entries
  matched n hn := (hnew n hn).elim (h.matched n) id
  handled id n c k hn hr hl hc := by
    rw [ha.registry] at hr
    exact (State.Grows.of_alike ha hold).handled (h.handled id n c k hn hr hl hc)

theorem install (h : s.Exact table w f) {key symbol : String} (g : Global)
    (hbinds : f.Binds table w id key symbol)
    (hcalls : ∀ c k, PlainName key → w.lookup id key = some (.callable c) → c.plain? = some k →
      s.Handled table w k) : (s.install id key symbol g).Exact table w f where
  entries entry hentry := by
    rw [State.install, Registry.install_eq] at hentry
    dsimp only at hentry
    split at hentry
    · exact h.entries entry hentry
    · rcases List.mem_append.mp hentry with hentry | hentry
      · exact h.entries entry hentry
      · rw [List.mem_singleton.mp hentry]
        exact hbinds
  matched := h.matched
  handled i n c k hn hr hl hc := by
    refine (State.Grows.install s id key symbol g).handled ?_
    rcases (State.isRecorded_install key symbol g i n).mp hr with ⟨rfl, rfl⟩ | hr
    · exact hcalls c k hn hl hc
    · exact h.handled i n c k hn hr hl hc

/-- A step that binds nothing and matches nothing. -/
theorem silent (h : s.Exact table w f) (ha : s.Alike t) (hmatched : t.matched = s.matched) :
    t.Exact table w f ∧ s.Grows t := by
  have hold : ∀ n ∈ s.matched, n ∈ t.matched := fun n hn => hmatched ▸ hn
  exact ⟨h.of_alike ha hold fun n hn => .inl (hmatched ▸ hn), .of_alike ha hold⟩

/-- Where every name is handled that is recorded, all functions are that a handled one comes to. -/
theorem handled_of_visits (h : s.Exact table w f) (hf : s.Handled table w f)
    (hg : f.Visits table w g) : s.Handled table w g := by
  induction hg with
  | refl => exact hf
  | step _ hn hfree hl hc ih =>
      exact h.handled _ _ _ _ (Function.plain_of_mem_sourceCalls hn) ((ih _ hn).2 hfree _ _ hl hc)
        hl hc

end State.Exact

/-! ## Steps of a pass -/

/-- The state after a call of an overridden name was met. -/
theorem State.Exact.meet (hs : s.Exact table w f) (hg : f.Visits table w g)
    (hname : name ∈ g.sourceCalls) {r : Callable} (hr : Dictionary.get? name table = some r)
    (hbound : (w.lookup g.home name).isSome) :
    (s.meet g.home name r).Exact table w f ∧ s.Grows (s.meet g.home name r) ∧
      (s.meet g.home name r).registry.isRecorded g.home (overrideAlias name) = true ∧
      (s.meet g.home name r).matched = s.matched := by
  rw [State.meet]
  split
  · next hrec => exact ⟨hs, .refl s, hrec, rfl⟩
  · refine ⟨hs.install _ ⟨g, hg, rfl, hname, .inl ⟨by rw [hr]; rfl, hbound, rfl⟩⟩ ?_,
      .install .., (State.isRecorded_install ..).mpr (.inl ⟨rfl, rfl⟩), rfl⟩
    exact fun c k hplain => absurd rfl (hplain name)

/-- A name that a function calls which the pass comes to is decided. -/
theorem decide_exact {b : Bool} (hg : f.Visits table w g) (hname : name ∈ g.sourceCalls)
    (hs : s.Exact table w f) (hordinary : s.Ordinary isolation w)
    (hcallee : ∀ k a u, f.Visits table w k → callee k s = (.ok a, u) →
      u.Exact table w f ∧ s.Grows u ∧ u.Handled table w k)
    (h : decide table debug callee g.home name s = (.ok b, t)) :
    t.Exact table w f ∧ s.Grows t ∧ t.Met table w g.home name := by
  have hplain := Function.plain_of_mem_sourceCalls hname
  have hisSome : (s.lookup g.home name).isSome = (w.lookup g.home name).isSome :=
    hordinary.isSome_lookup hplain
  have hmatched := decide_matched h
  cases decide_eq_ok h with
  | unbound hl =>
      have hnone : w.lookup g.home name = none := by
        rw [hl] at hisSome
        simpa using hisSome.symm
      exact ⟨hs, .refl _, fun _ hl => by simp [hnone] at hl,
        fun _ c k hl _ => by simp [hnone] at hl⟩
  | @overridden current r t hl hr halike =>
      -- only an override adds the name to those that matched
      have hinsert : t.matched = Ordered.insert name s.matched := by
        obtain ⟨hnone | hnone, -⟩ | ⟨-, -, hinsert⟩ | ⟨c, k, a, u, -, hnone, -⟩ := hmatched
        · rw [hl] at hnone
          cases hnone
        · rw [hr] at hnone
          cases hnone
        · exact hinsert
        · rw [hr] at hnone
          cases hnone
      have hbound : (w.lookup g.home name).isSome := by
        rw [← hisSome, hl]
        rfl
      obtain ⟨hmeet, hgrows, hrec, hsame⟩ := hs.meet hg hname hr hbound
      rw [← hsame] at hinsert
      have hold : ∀ n ∈ (s.meet g.home name r).matched, n ∈ t.matched := fun n hn => by
        rw [hinsert]
        exact Ordered.mem_insert.mpr (.inr hn)
      have hkey : (Dictionary.get? name table).isSome := by
        rw [hr]
        rfl
      refine ⟨hmeet.of_alike halike hold fun n hn => ?_, hgrows.trans (.of_alike halike hold),
        fun _ _ => ⟨(State.Grows.of_alike halike hold).recorded _ _ hrec, ?_⟩, fun hnone => ?_⟩
      · rw [hinsert, Ordered.mem_insert] at hn
        rcases hn with rfl | hn
        · exact .inr ⟨hkey, g, hg, hname, hbound⟩
        · exact .inl hn
      · rw [hinsert]
        exact Ordered.mem_insert.mpr (.inl rfl)
      · rw [hnone] at hkey
        cases hkey
  | @replaced c k a u hl hr hc hu =>
      have hw := hordinary.rests.plain hplain hl hc
      -- the pass over the callee comes first, then its artifact is bound
      obtain ⟨hexact, hgrows, hhandled⟩ := hcallee k a u (.step hg hname hr hw hc) hu
      refine ⟨hexact.install _ ⟨g, hg, rfl, hname, .inr ⟨hr, rfl, c, k, hw, hc⟩⟩ ?_,
        hgrows.trans (.install ..), fun hsome => ?_, fun _ _ _ _ _ =>
          (State.isRecorded_install ..).mpr (.inl ⟨rfl, rfl⟩)⟩
      · intro c' k' _ hl' hc'
        rw [hw] at hl'
        cases hl'
        rw [hc] at hc'
        cases hc'
        exact hhandled
      · rw [hr] at hsome
        cases hsome
  | @kept current hl hr hkept =>
      refine ⟨hs, .refl _, fun hsome => ?_, fun _ c k hl' hc => ?_⟩
      · rw [hr] at hsome
        cases hsome
      · -- what is bound to a function in the world is bound to an artifact only if it is recorded
        by_contra hfree
        rw [hordinary.lookup_of_free hfree, hl'] at hl
        exact hkept c k (Option.some.inj hl).symm hc

theorem decideAll_exact {found : List String} (hg : f.Visits table w g)
    (hnames : ∀ n ∈ names, n ∈ g.sourceCalls) (hs : s.Exact table w f)
    (hordinary : s.Ordinary isolation w)
    (hpreserves : ∀ k, Run.Preserves (State.Ordinary isolation w) (callee k))
    (hcallee : ∀ k a s u, f.Visits table w k → s.Exact table w f → s.Ordinary isolation w →
      callee k s = (.ok a, u) → u.Exact table w f ∧ s.Grows u ∧ u.Handled table w k)
    (h : decideAll table debug callee g.home names s = (.ok found, t)) :
    t.Exact table w f ∧ s.Grows t ∧ ∀ n ∈ names, t.Met table w g.home n := by
  induction names generalizing s found with
  | nil =>
      cases h
      exact ⟨hs, .refl _, fun n hn => absurd hn List.not_mem_nil⟩
  | cons n rest ih =>
      rw [decideAll] at h
      obtain ⟨b, s₁, hb, h⟩ := Run.bind_eq_ok h
      obtain ⟨more, t₁, hmore, h⟩ := Run.bind_eq_ok h
      cases h
      obtain ⟨hs₁, hgrows, hmet⟩ := decide_exact hg (hnames n List.mem_cons_self) hs hordinary
        (fun k a u hk hu => hcallee k a s u hk hs hordinary hu) hb
      have hordinary₁ : s₁.Ordinary isolation w := by
        have hdecide : Run.Preserves (State.Ordinary isolation w)
            (decide table debug callee g.home n) :=
          (State.Ordinary.steady isolation w).decide hpreserves g.home n
        have hstep := hdecide s hordinary
        rwa [hb] at hstep
      obtain ⟨ht, hgrows', hrest⟩ := ih (fun m hm => hnames m (List.mem_cons_of_mem n hm)) hs₁
        hordinary₁ hmore
      exact ⟨ht, hgrows.trans hgrows', List.forall_mem_cons.mpr ⟨hgrows'.met hmet, hrest⟩⟩

/-- A pass over a function leaves the records of all its calls. -/
theorem specialize_exact {fuel : Nat} {active : List (Nat × String)} {made : Function}
    (hg : f.Visits table w g) (hs : s.Exact table w f) (hordinary : s.Ordinary isolation w)
    (h : specialize table debug fuel active g s = (.ok made, t)) :
    t.Exact table w f ∧ s.Grows t ∧ t.Handled table w g := by
  induction fuel generalizing active g s t made with
  | zero =>
      rw [specialize] at h
      split at h <;> cases h
  | succ fuel ih =>
      rw [specialize] at h
      split at h
      · cases h
      · obtain ⟨d, span, rest, hunit⟩ := exists_function_of_substituteFunction h
        obtain ⟨s₁, t₁, names, ⟨hs₁, hm₁⟩, -, hdecide, ⟨ht, hm⟩, -⟩ :=
          substituteFunction_of_extract hunit h
        have hcalls : calledInOrder d.body = g.sourceCalls := by rw [Function.sourceCalls, hunit]
        have steady := State.Ordinary.steady isolation w
        obtain ⟨hstart, hfirst⟩ := hs.silent hs₁ hm₁
        rw [hcalls] at hdecide
        obtain ⟨hexact, hgrows, hmet⟩ := decideAll_exact hg (fun n hn => hn) hstart
          (steady.of_alike hordinary hs₁)
          (fun k => (steady.specialize table debug fuel _ k).bind fun _ => steady.compile _)
          (fun k a s u hk hs hordinary hu => by
            obtain ⟨k', s', hk', hcompile⟩ := Run.bind_eq_ok hu
            obtain ⟨hexact, hgrows, hhandled⟩ := ih hk hs hordinary hk'
            obtain ⟨hexact, hlast⟩ :=
              hexact.silent (alike_of_compile hcompile) (compile_matched hcompile)
            exact ⟨hexact, hgrows.trans hlast, hlast.handled hhandled⟩)
          hdecide
        obtain ⟨hend, hlast⟩ := hexact.silent ht hm
        exact ⟨hend, hfirst.trans (hgrows.trans hlast), fun n hn => hlast.met (hmet n hn)⟩

/-- The registry of a pass is exact. Each key is recorded once. What is recorded is what the pass
binds for the calls of the functions that it comes to, with what the table held for the key before;
and the overridden names that count as matched are those that such a function calls where they are
bound. A function calls what the definition calls that is read again from its source, which is its
own definition if the function was made of that source. -/
theorem substituteCompiled_registers {a : Artifact}
    (h : substituteCompiled table debug f (.start isolation w) = (.ok a, s)) :
    (s.registry.replaced.map Replaced.place).Nodup ∧
    (∀ entry, entry ∈ s.registry.replaced ↔ f.Binds table w entry.home entry.key entry.symbol ∧
      entry.previous = (SymbolTable.ofIsolation isolation).held w entry.home entry.key) ∧
    (∀ n, n ∈ s.matched ↔ f.Matches table w n) ∧
    ∀ g : Function, g.Rereads → ∀ n, n ∈ g.sourceCalls ↔ g.definition.body.Calls ⟨n, []⟩ := by
  obtain ⟨made, t, hmade, hcompile⟩ := Run.bind_eq_ok h
  rw [substitute_apply] at hmade
  have hempty : State.Exact table w f (.start isolation w) :=
    ⟨fun _ he => absurd he List.not_mem_nil, fun _ hn => absurd hn List.not_mem_nil,
      fun id n c k _ hr => by cases hr⟩
  obtain ⟨hexact, -, hhandled⟩ :=
    specialize_exact .refl hempty (State.Ordinary.start isolation w) hmade
  obtain ⟨hexact, hlast⟩ := hexact.silent (alike_of_compile hcompile) (compile_matched hcompile)
  have hall (g : Function) (hg : f.Visits table w g) : s.Handled table w g :=
    hexact.handled_of_visits (hlast.handled hhandled) hg
  have hordinary : s.Ordinary isolation w := by
    have steady := State.Ordinary.steady isolation w
    have hpass : Run.Preserves (State.Ordinary isolation w) (substituteCompiled table debug f) :=
      (Run.Preserves.get.bind fun _ => steady.specialize table debug _ _ f).bind fun _ =>
        steady.compile _
    have hs := hpass _ (.start isolation w)
    rwa [h] at hs
  refine ⟨hordinary.remembers.nodup, fun entry => ⟨fun hentry => ⟨hexact.entries entry hentry,
    hordinary.remembers.previous entry hentry⟩, ?_⟩, fun n => ⟨hexact.matched n, ?_⟩, ?_⟩
  · rintro ⟨hbinds, hprevious⟩
    have hrecorded : s.registry.isRecorded entry.home entry.key = true := by
      obtain ⟨g, hg, hhome, hn, ⟨hkey, hbound, halias⟩ | ⟨hfree, hself, c, k, hl, hc⟩⟩ := hbinds
      · rw [halias, ← hhome]
        exact ((hall g hg _ hn).1 hkey (hhome ▸ hbound)).1
      · rw [hself, ← hhome]
        exact (hall g hg _ hn).2 hfree c k (hhome ▸ hl) hc
    -- the entry that is recorded for the key is this one
    obtain ⟨found, hfound, hplace⟩ := List.mem_map.mp (Registry.isRecorded_iff.mp hrecorded)
    obtain ⟨hhome, hkey⟩ := Prod.mk.inj hplace
    have hsymbol := hexact.entries found hfound
    have hheld := hordinary.remembers.previous found hfound
    rw [hhome, hkey] at hsymbol hheld
    rw [← hprevious] at hheld
    obtain ⟨home, key, symbol, previous⟩ := found
    cases hhome
    cases hkey
    cases hheld
    cases hsymbol.symbol_eq hbinds
    exact hfound
  · rintro ⟨hkey, g, hg, hn, hbound⟩
    exact ((hall g hg n hn).1 hkey hbound).2
  · rintro g ⟨span, hunit⟩ n
    rw [Function.sourceCalls, hunit]
    exact mem_calledInOrder

theorem substituteCompiled_registers_chain :
    ∃ a s, substituteCompiled chainTable false chainFirst (.start .shared chainWorld) = (.ok a, s) ∧
      (s.registry.replaced.map Replaced.place).Nodup ∧
      ⟨1, "g@override", "g", none⟩ ∈ s.registry.replaced ∧ "g" ∈ s.matched := by
  have hok : (substituteCompiled chainTable false chainFirst
      (.start .shared chainWorld)).1.isOk = true := by decide +kernel
  have hfirst : "h" ∈ chainFirst.sourceCalls := by decide +kernel
  have hsecond : "g" ∈ chainSecond.sourceCalls := by decide +kernel
  have hvisits : chainFirst.Visits chainTable chainWorld chainSecond :=
    .step .refl hfirst rfl rfl rfl
  obtain ⟨a, s, h⟩ := Run.exists_of_isOk hok
  obtain ⟨hnodup, hentries, hmatched, -⟩ := substituteCompiled_registers h
  refine ⟨a, s, h, hnodup, (hentries _).mpr ⟨?_, rfl⟩, (hmatched _).mpr ?_⟩
  · exact ⟨chainSecond, hvisits, rfl, hsecond, .inl ⟨rfl, rfl, rfl⟩⟩
  · exact ⟨rfl, chainSecond, hvisits, hsecond, rfl⟩

/-- A function that was made of a changed unit is read again as it was before, so a pass over it
records what another function calls. -/
theorem substituteCompiled_not_registers :
    ∃ f a s, chainFirst.reassemble 5 chainUnit = .ok f ∧
      substituteCompiled [] false f (.start .separate chainWorld) = (.ok a, s) ∧
      (∀ n, ¬ f.definition.body.Calls ⟨n, []⟩) ∧ s.registry.replaced ≠ [] := by
  have hcheck : ((chainFirst.reassemble 5 chainUnit).toOption.any fun f =>
      f.definition.body.callSites.isEmpty &&
        (substituteCompiled [] false f (.start .separate chainWorld)).1.isOk &&
          !(substituteCompiled [] false f
            (.start .separate chainWorld)).2.registry.replaced.isEmpty) = true := by
    decide +kernel
  cases hf : chainFirst.reassemble 5 chainUnit with
  | error d =>
      rw [hf] at hcheck
      cases hcheck
  | ok f =>
      rw [hf] at hcheck
      rcases h : substituteCompiled [] false f (.start .separate chainWorld) with ⟨e | a, s⟩
      · simp [Except.toOption, h, Except.isOk, Except.toBool] at hcheck
      · simp only [Except.toOption, Option.any_some, h, Bool.and_eq_true, List.isEmpty_iff,
          Bool.not_eq_true', List.isEmpty_eq_false_iff] at hcheck
        obtain ⟨⟨hsites, -⟩, hreplaced⟩ := hcheck
        refine ⟨f, a, s, rfl, h, ?_, hreplaced⟩
        rintro n ⟨site, hsite, -⟩
        rw [hsites] at hsite
        exact List.not_mem_nil hsite

end Pass

end Graft
