import Graft.Proofs.EngineModules

/-!
# Sessions

A client of an engine loads and extends modules, defines and removes names, drops modules, and calls
gateways with whatever it holds. It refers to modules and objects by the order in which it got them.
Whether the engine keeps specializations makes no difference to what the client is told.
-/

namespace Graft

/-! ## Clients -/

/-- What a client holds, in the order in which it came. -/
structure Client where
  modules : List Module := []
  objects : List Callable := []
  deriving Inhabited

/-- A keyword argument of a command. An override is an object that the client holds. -/
inductive Argument where
  | flag (on : Bool)
  | value (v : Value)
  | override (object : Nat)

/-- What a client can ask of an engine. Modules and objects are given by their places. -/
inductive Session.Command where
  | load (name file source : String)
  | extend (module : Nat) (file source : String)
  /-- Reads source that is not kept. -/
  | evaluate (module : Nat) (source : String)
  | define (module : Nat) (name : String) (object : Nat)
  | defineConstant (module : Nat) (name : String) (v : Value)
  | remove (module : Nat) (name : String)
  | limitRecursion (module : Nat) (limit : Nat)
  | drop (module : Nat)
  | get (module : Nat) (name : String)
  /-- The gateway of a name; a plain function is wrapped. -/
  | gateway (module : Nat) (name : String)
  | native (n : Native)
  /-- A function of a module, made of its parts. -/
  | assemble (module : Nat) (d : Definition) (origin : Origin) (captures : List (String × Value))
  | convert (object : Nat)
  /-- A call with nothing but arguments. -/
  | apply (object : Nat) (args : List Value)
  /-- A call of a gateway, possibly with substitutions made ahead. -/
  | call (object : Nat) (args : List Value) (keywords : List (String × Argument))
  | bind (object : Nat) (keywords : List (String × Argument))
  | explain (object : Nat) (keywords : List (String × Argument))
  | clearCache

/-- What a client is told. -/
inductive Reply where
  | done
  /-- There is nothing of that sort at the place, or nothing bound to the name. -/
  | missing
  | value (v : Value)
  | text (s : String)
  | callable (c : Callable)
  | module (m : Module)
  /-- The module at the place was extended by the names. -/
  | extended (place : Nat) (m : Module) (names : List String)
  | names (names : List String)
  | problems (reports : List Diagnostic)

namespace Reply

/-- What a name is bound to. -/
def ofBinding : Option Global → Reply
  | some (.constant v) => .value v
  | some (.callable c) => .callable c
  | none => .missing

def ofProduct : Product → Reply
  | .value v => .value v
  | .artifact a => .callable (.artifact a)

end Reply

namespace Client

def withModule (s : Client) (place : Nat) (act : Module → Act Reply) : Act Reply :=
  match s.modules[place]? with
  | some m => act m
  | none => return .missing

def withObject (s : Client) (place : Nat) (act : Callable → Act Reply) : Act Reply :=
  match s.objects[place]? with
  | some c => act c
  | none => return .missing

/-- A keyword argument with the object that it refers to. -/
def resolve (s : Client) : Argument → Option KeywordArgument
  | .flag on => some (.flag on)
  | .value v => some (.value v)
  | .override object => s.objects[object]?.map .override

def keywords (s : Client) : List (String × Argument) → Option Keywords
  | [] => some []
  | (name, a) :: rest =>
    match s.resolve a, s.keywords rest with
    | some k, some ks => some ((name, k) :: ks)
    | _, _ => none

def withGateway (s : Client) (place : Nat) (keywords : List (String × Argument))
    (act : Gateway → Keywords → Act Reply) : Act Reply :=
  match s.objects[place]?, s.keywords keywords with
  | some (.gateway g), some ks => act g ks
  | _, _ => return .missing

/-- The client holds what it was given. -/
def take (s : Client) : Reply → Client
  | .callable c => { s with objects := s.objects ++ [c] }
  | .module m => { s with modules := s.modules ++ [m] }
  | .extended place m _ => { s with modules := s.modules.set place m }
  | _ => s

end Client

/-- Carries out a command for a client. -/
def Session.Command.run (s : Client) : Session.Command → Act Reply
  | load name file source => do
    match ← Module.loadFile name file source with
    | .ok m => return .module m
    | .error reports => return .problems reports
  | extend place file source => s.withModule place fun m => do
    match ← m.extend file source with
    | .ok (m, names) => return .extended place m names
    | .error reports => return .problems reports
  | evaluate place source => s.withModule place fun m => do
    match ← m.evaluate source with
    | .ok names => return .names names
    | .error reports => return .problems reports
  | define place name object => s.withModule place fun m => s.withObject object fun c => do
    m.define name (.callable c)
    return .done
  | defineConstant place name v => s.withModule place fun m => do
    m.define name (.constant v)
    return .done
  | remove place name => s.withModule place fun m => return .ofBinding (← m.remove name)
  | limitRecursion place limit => s.withModule place fun m => do
    m.limitRecursion limit
    return .done
  | drop place => s.withModule place fun m => do
    m.drop
    return .done
  | get place name => s.withModule place fun m => return .ofBinding (m.get? (← MonadState.get) name)
  | gateway place name => s.withModule place fun m =>
    return .callable (.gateway (← m.gateway name))
  | native n => return .callable (.native n)
  | assemble place d origin captures => s.withModule place fun m =>
    return .callable (.function (.build (← Act.freshId) d origin m.home captures))
  | convert object => s.withObject object fun c => return .callable (← c.convert)
  | apply object args => s.withObject object fun c => return .value (← c.call args)
  | call object args keywords => s.withObject object fun c =>
    match s.keywords keywords with
    | none => return .missing
    | some ks =>
      match c.callKeywords? args ks with
      | none => return .missing
      | some act => return .ofProduct (← act)
  | bind object keywords => s.withGateway object keywords fun g ks =>
    return .callable (← g.partialApply ks)
  | explain object keywords => s.withGateway object keywords fun g ks =>
    return .text (← g.explain ks)
  | clearCache => do
    modify fun w => { w with cache := w.cache.clear }
    return .done

/-! ## What is asked for -/

/-- The streams that a call with keyword arguments asks for, calls that it comes to apart. -/
def Callable.asksWith (w : World) (ks : Keywords) : Callable → List KeyStream
  | .gateway g => w.asks g ks
  | .bound _ g overrides _ => w.asks g (.ofOverrides overrides ++ ks)
  | _ => []

namespace Client

/-- The streams that reading a text into a module asks for. -/
def asksFor (s : Client) (w : World) (place : Nat) (source : String) (origin : Span → Origin) :
    List KeyStream :=
  match s.modules[place]? with
  | some m => Module.asks w m.home source origin
  | none => []

end Client

/-- The streams of the keys that a command can ask the cache for. -/
def Session.Command.asks (s : Client) (w : World) : Session.Command → List KeyStream
  | load name file source =>
    Module.asks (w.addNamespace name).2 (w.addNamespace name).1 source (.source ⟨file, source⟩)
  | extend place file source => s.asksFor w place source (.source ⟨file, source⟩)
  | evaluate place source => s.asksFor w place source fun _ => .interactive
  | apply object _ =>
    match s.objects[object]? with
    | some c => w.boundAsks ++ c.asks w
    | none => []
  | call object _ keywords =>
    match s.objects[object]?, s.keywords keywords with
    | some c, some ks => w.boundAsks ++ c.asksWith w ks
    | _, _ => []
  | _ => []

/-! ## Histories -/

/-- An engine and a client of it. -/
structure Session where
  world : World
  client : Client := {}
  deriving Inhabited

namespace Session

/-- A session with nothing loaded. -/
def start (settings : Settings) : Session := { world := { settings } }

/-- What the client is told on a command, and the session after it. -/
def step (s : Session) (c : Command) : Except Fault Reply × Session :=
  match c.run s.client s.world with
  | (.ok r, w) => (.ok r, ⟨w, s.client.take r⟩)
  | (.error e, w) => (.error e, ⟨w, s.client⟩)

/-- What the client is told in the course of a history. -/
def replies (s : Session) : List Command → List (Except Fault Reply)
  | [] => []
  | c :: rest => (s.step c).1 :: (s.step c).2.replies rest

/-- The session after a history. -/
def after (s : Session) : List Command → Session
  | [] => s
  | c :: rest => (s.step c).2.after rest

/-- The streams of the keys that a history can ask the cache for. -/
def asks (s : Session) : List Command → List KeyStream
  | [] => []
  | c :: rest => c.asks s.client s.world ++ (s.step c).2.asks rest

end Session

/-! ## What two clients hold -/

section

variable {α β : Type} {R : α → β → Prop} {l : List α} {l' : List β}

theorem getElem?_twins (h : List.Forall₂ R l l') (i : Nat) : Option.Rel R l[i]? l'[i]? := by
  induction h generalizing i with
  | nil => exact .none
  | cons hab _ ih =>
      cases i with
      | zero => exact .some hab
      | succ i => exact ih i

theorem set_twins (h : List.Forall₂ R l l') (i : Nat) {a : α} {b : β} (hab : R a b) :
    List.Forall₂ R (l.set i a) (l'.set i b) := by
  induction h generalizing i with
  | nil => exact .nil
  | cons hxy hrest ih =>
      cases i with
      | zero => exact .cons hab hrest
      | succ i => exact .cons hxy (ih i)

end

variable {ρ σ : Renumbering} {streams : List KeyStream} {L M : Ledger} {w w' : World}

/-- Nothing tells the replies apart but numbers that belong together, or that belong to artifacts or
gateways. -/
inductive Reply.Twin (ρ : Renumbering) : Reply → Reply → Prop
  | done : Reply.Twin ρ .done .done
  | missing : Reply.Twin ρ .missing .missing
  | value (v : Value) : Reply.Twin ρ (.value v) (.value v)
  | text (s : String) : Reply.Twin ρ (.text s) (.text s)
  | callable {c c' : Callable} : c.Twin ρ c' → Reply.Twin ρ (.callable c) (.callable c')
  | module {m m' : Module} : m.Twin ρ m' → Reply.Twin ρ (.module m) (.module m')
  | extended (place : Nat) {m m' : Module} (names : List String) : m.Twin ρ m' →
      Reply.Twin ρ (.extended place m names) (.extended place m' names)
  | names (names : List String) : Reply.Twin ρ (.names names) (.names names)
  | problems (reports : List Diagnostic) : Reply.Twin ρ (.problems reports) (.problems reports)

/-- Twins that are known on the first side. -/
structure Reply.Given (ρ : Renumbering) (L : Ledger) (r r' : Reply) : Prop where
  twin : r.Twin ρ r'
  known : ∀ c, r = .callable c → c.Known L

namespace Reply

variable {r r' : Reply}

theorem Twin.mono (h : r.Twin ρ r') (hle : ρ ≤ σ) : r.Twin σ r' := by
  cases h with
  | done => exact .done
  | missing => exact .missing
  | value v => exact .value v
  | text s => exact .text s
  | callable hc => exact .callable (hc.mono hle)
  | module hm => exact .module (hm.mono hle)
  | extended place names hm => exact .extended place names (hm.mono hle)
  | names names => exact .names names
  | problems reports => exact .problems reports

theorem Given.callable {c c' : Callable} (h : c.Given ρ L c') :
    Given ρ L (.callable c) (.callable c') :=
  ⟨.callable h.twin, by rintro _ ⟨⟩; exact h.known⟩

theorem given_done : Given ρ L .done .done := ⟨.done, nofun⟩

theorem given_missing : Given ρ L .missing .missing := ⟨.missing, nofun⟩

theorem given_value (v : Value) : Given ρ L (.value v) (.value v) := ⟨.value v, nofun⟩

theorem given_ofProduct {p p' : Product} (h : Product.Twin L p p') :
    Given ρ L (.ofProduct p) (.ofProduct p') := by
  cases h with
  | value v => exact given_value v
  | artifact ha => exact .callable ⟨.artifact ha.alike, Callable.known_artifact ha.known⟩

theorem given_ofBinding {g g' : Option Global} (h : Option.Rel (Global.Given ρ L) g g') :
    Given ρ L (.ofBinding g) (.ofBinding g') := by
  cases h with
  | none => exact given_missing
  | some h =>
      obtain ⟨htwin, hknown⟩ := h
      cases htwin with
      | constant v => exact given_value v
      | callable hc => exact .callable ⟨hc, hknown _ rfl⟩

end Reply

/-- The clients hold twins. -/
structure Client.Twin (ρ : Renumbering) (L : Ledger) (s s' : Client) : Prop where
  modules : List.Forall₂ (Module.Twin ρ) s.modules s'.modules
  objects : List.Forall₂ (Callable.Given ρ L) s.objects s'.objects

namespace Client.Twin

variable {s s' : Client}

theorem mono (h : s.Twin ρ L s') (hle : ρ ≤ σ) (hle' : L ≤ M) : s.Twin σ M s' :=
  ⟨h.modules.imp fun _ _ hm => hm.mono hle, h.objects.imp fun _ _ hc => hc.mono hle hle'⟩

/-- The clients take what they are given. -/
theorem take (h : s.Twin ρ L s') {r r' : Reply} (hr : r.Given ρ L r') :
    (s.take r).Twin ρ L (s'.take r') := by
  obtain ⟨htwin, hknown⟩ := hr
  cases htwin with
  | callable hc =>
      exact ⟨h.modules, List.rel_append h.objects (.cons ⟨hc, hknown _ rfl⟩ .nil)⟩
  | module hm => exact ⟨List.rel_append h.modules (.cons hm .nil), h.objects⟩
  | extended place _ hm => exact ⟨set_twins h.modules place hm, h.objects⟩
  | done | missing | value _ | text _ | names _ | problems _ => exact h

theorem keywords (h : s.Twin ρ L s') (args : List (String × Argument)) :
    Option.Rel (Keywords.Given ρ L) (s.keywords args) (s'.keywords args) := by
  induction args with
  | nil => exact .some ⟨.nil, nofun⟩
  | cons entry rest ih =>
      obtain ⟨name, a⟩ := entry
      have hresolve : Option.Rel (fun k k' => KeywordArgument.Twin ρ k k' ∧
          ∀ c, k = .override c → c.Known L) (s.resolve a) (s'.resolve a) := by
        cases a with
        | flag on => exact .some ⟨.flag on, nofun⟩
        | value v => exact .some ⟨.value v, nofun⟩
        | override object =>
            have hobject := getElem?_twins h.objects object
            rw [Client.resolve, Client.resolve]
            generalize s.objects[object]? = o at hobject ⊢
            generalize s'.objects[object]? = o' at hobject ⊢
            cases hobject with
            | none => exact .none
            | some hc => exact .some ⟨.override hc.twin, by rintro _ ⟨⟩; exact hc.known⟩
      rw [Client.keywords, Client.keywords]
      generalize s.resolve a = o at hresolve ⊢
      generalize s'.resolve a = o' at hresolve ⊢
      generalize s.keywords rest = ks at ih ⊢
      generalize s'.keywords rest = ks' at ih ⊢
      cases hresolve with
      | none => exact .none
      | some hk =>
          cases ih with
          | none => exact .none
          | some hks =>
              refine .some ⟨.cons ⟨rfl, hk.1⟩ hks.twin, fun n c hc => ?_⟩
              rcases List.mem_cons.mp hc with hc | hc
              · obtain ⟨-, rfl⟩ := Prod.mk.inj hc
                exact hk.2 c rfl
              · exact hks.known n c hc

end Client.Twin

/-! ## Commands -/

namespace Engine

variable {s s' : Client}

theorem clear (h : Engine ρ streams L w w') :
    Engine ρ streams L { w with cache := w.cache.clear } { w' with cache := w'.cache.clear } := by
  have hsame : ∀ v : World, v.Same { v with cache := v.cache.clear } := fun v =>
    (World.Same.refl v).touch rfl rfl
  have hle := Nat.le_refl w.nextId
  exact h.next (hsame w) (hsame w') hle
    ⟨h.twin.live, h.twin.lookup, h.twin.taken, h.twin.placed, h.twin.strict, hle, rfl⟩
    fun _ he => absurd he List.not_mem_nil

theorem withModule_goes (h : Engine ρ streams L w w') (hs : s.Twin ρ L s') (place : Nat)
    {act act' : Module → Act Reply}
    (step : ∀ m m', s.modules[place]? = some m → m.Twin ρ m' →
      Goes ρ streams L Reply.Given (act m w) (act' m' w')) :
    Goes ρ streams L Reply.Given (s.withModule place act w) (s'.withModule place act' w') := by
  rw [Client.withModule, Client.withModule]
  have hmodule := getElem?_twins hs.modules place
  generalize s.modules[place]? = m at hmodule step ⊢
  generalize s'.modules[place]? = m' at hmodule ⊢
  cases hmodule with
  | none => exact Ends.goes (value h Reply.given_missing)
  | some htwin => exact step _ _ rfl htwin

theorem withObject_goes (h : Engine ρ streams L w w') (hs : s.Twin ρ L s') (place : Nat)
    {act act' : Callable → Act Reply}
    (step : ∀ c c', s.objects[place]? = some c → c.Given ρ L c' →
      Goes ρ streams L Reply.Given (act c w) (act' c' w')) :
    Goes ρ streams L Reply.Given (s.withObject place act w) (s'.withObject place act' w') := by
  rw [Client.withObject, Client.withObject]
  have hobject := getElem?_twins hs.objects place
  generalize s.objects[place]? = c at hobject step ⊢
  generalize s'.objects[place]? = c' at hobject ⊢
  cases hobject with
  | none => exact Ends.goes (value h Reply.given_missing)
  | some hgiven => exact step _ _ rfl hgiven

theorem withGateway_goes (h : Engine ρ streams L w w') (hs : s.Twin ρ L s') (place : Nat)
    (args : List (String × Argument)) {act act' : Gateway → Keywords → Act Reply}
    (step : ∀ g g' ks ks', g.Given ρ L g' → ks.Given ρ L ks' →
      Goes ρ streams L Reply.Given (act g ks w) (act' g' ks' w')) :
    Goes ρ streams L Reply.Given (s.withGateway place args act w)
      (s'.withGateway place args act' w') := by
  have hmissing : Goes ρ streams L Reply.Given ((return .missing : Act Reply) w)
      ((return .missing : Act Reply) w') := Ends.goes (value h Reply.given_missing)
  rw [Client.withGateway, Client.withGateway]
  have hobject := getElem?_twins hs.objects place
  have hkeywords := hs.keywords args
  generalize s.objects[place]? = c at hobject ⊢
  generalize s'.objects[place]? = c' at hobject ⊢
  generalize s.keywords args = ks at hkeywords ⊢
  generalize s'.keywords args = ks' at hkeywords ⊢
  cases hobject with
  | none => exact hmissing
  | some hc =>
      obtain ⟨htwin, hknown⟩ := hc
      cases htwin with
      | gateway hg =>
          cases hkeywords with
          | none => exact hmissing
          | some hks => exact step _ _ _ _ ⟨hg, hknown.gateway⟩ hks
      | function _ | artifact _ | native _ | bound _ _ _ => exact hmissing

variable {m m' : Module}

theorem get?_twins (h : Engine ρ streams L w w') (hm : m.Twin ρ m') (name : String) :
    Option.Rel (Global.Given ρ L) (m.get? w name) (m'.get? w' name) := by
  have hlookup := h.twin.lookup hm.home name
  rw [Module.get?, Module.get?]
  generalize hg : w.lookup m.home name = g at hlookup ⊢
  generalize w'.lookup m'.home name = g' at hlookup ⊢
  cases hlookup with
  | none => exact .none
  | some htwin => exact .some ⟨htwin, fun c hc => h.books.bound (hc ▸ hg)⟩

/-- Names have gateways alike. -/
theorem gateway_ends (h : Engine ρ streams L w w') (hm : m.Twin ρ m') (name : String) :
    Ends ρ streams L (fun M g g' => g.Given ρ M g') (m.gateway name w) (m'.gateway name w') := by
  have hget := h.get?_twins hm name
  rw [Module.gateway, Module.gateway, Run.bind_apply, Run.bind_apply, Run.get_apply, Run.get_apply]
  dsimp only
  rw [Module.callable, Module.callable, Module.undefined, Module.undefined, hm.name]
  generalize m.get? w name = g at hget ⊢
  generalize m'.get? w' name = g' at hget ⊢
  cases hget with
  | none => exact h.fault _
  | some hg =>
      obtain ⟨htwin, hknown⟩ := hg
      cases htwin with
      | constant v => exact h.fault _
      | callable hc =>
          have hknown := hknown _ rfl
          cases hc with
          | gateway hg => exact value h ⟨hg, hknown.gateway⟩
          | function hf =>
              exact h.freshId_ends.bind fun M i i' v v' hle _ hv _ =>
                value hv ⟨hf, hle.functions hknown.function⟩
          | artifact ha => exact h.fault (.report (Module.notSpecializable name (.artifact _)))
          | native n => exact h.fault _
          | bound d hg hall => exact h.fault (.report (Module.notSpecializable name (.bound _ _ _ _)))

end Engine

namespace Engine

variable {s s' : Client}

/-- Calls with keyword arguments end alike. -/
theorem callKeywords_ends (h : Engine ρ streams L w w') (free : CollisionFree streams)
    (bound : w.Asked streams) {c c' : Callable} (hc : c.Given ρ L c') {ks ks' : Keywords}
    (hks : ks.Given ρ L ks') (asked : c.asksWith w ks ⊆ streams) (args : List Value) :
    Option.Rel (fun x y => Ends ρ streams L Product.Twin (x w) (y w')) (c.callKeywords? args ks)
      (c'.callKeywords? args ks') := by
  obtain ⟨htwin, hknown⟩ := hc
  cases htwin with
  | gateway hg => exact .some (h.call_ends free bound ⟨hg, hknown.gateway⟩ hks asked args)
  | bound d hg hall =>
      refine .some (h.call_ends free bound ⟨hg, hknown.bound.1⟩ ⟨?_, ?_⟩ asked args)
      · exact List.rel_append (Keywords.ofOverrides_twin hall) hks.twin
      · exact (Keywords.ofOverrides_known hknown.bound.2).append hks.known
  | function _ | artifact _ | native _ => exact .none

/-- A command is carried out alike. -/
theorem run_goes (h : Engine ρ streams L w w') (free : CollisionFree streams)
    (hs : s.Twin ρ L s') (c : Session.Command) (asked : c.asks s w ⊆ streams) :
    Goes ρ streams L Reply.Given (c.run s w) (c.run s' w') := by
  cases c with
  | load name file source =>
      refine (h.loadFile_goes free name file source asked).bind fun σ M r r' v v' _ _ _ hv hr => ?_
      cases hr with
      | ok hm => exact Ends.goes (value hv ⟨.module hm, nofun⟩)
      | error reports => exact Ends.goes (value hv ⟨.problems reports, nofun⟩)
  | extend place file source =>
      refine h.withModule_goes hs place fun m m' hplace hm => ?_
      rw [Session.Command.asks, Client.asksFor, hplace] at asked
      refine (h.extend_goes free hm file source asked).bind fun σ M r r' v v' _ _ _ hv hr => ?_
      cases hr with
      | @ok a b hab =>
          obtain ⟨n, names⟩ := a
          obtain ⟨n', _⟩ := b
          obtain ⟨hn, rfl⟩ := hab
          exact Ends.goes (value hv ⟨.extended place names hn, nofun⟩)
      | error reports => exact Ends.goes (value hv ⟨.problems reports, nofun⟩)
  | evaluate place source =>
      refine h.withModule_goes hs place fun m m' hplace hm => ?_
      rw [Session.Command.asks, Client.asksFor, hplace] at asked
      refine (h.readItems_goes free hm source _ asked).bind fun σ M r r' v v' _ _ _ hv hr => ?_
      subst hr
      cases r with
      | ok names => exact Ends.goes (value hv ⟨.names names, nofun⟩)
      | error reports => exact Ends.goes (value hv ⟨.problems reports, nofun⟩)
  | define place name object =>
      refine h.withModule_goes hs place fun m m' _ hm => h.withObject_goes hs object fun c c' _ hc => ?_
      have hg : Global.Given ρ L (.callable c) (.callable c') :=
        ⟨.callable hc.twin, by rintro _ ⟨⟩; exact hc.known⟩
      exact Ends.goes (value (h.define hm.home name hg) Reply.given_done)
  | defineConstant place name v =>
      refine h.withModule_goes hs place fun m m' _ hm => ?_
      have hg : Global.Given ρ L (.constant v) (.constant v) := ⟨.constant v, nofun⟩
      exact Ends.goes (value (h.define hm.home name hg) Reply.given_done)
  | remove place name =>
      refine h.withModule_goes hs place fun m m' _ hm => ?_
      exact Ends.goes (value (h.remove hm.home name) (Reply.given_ofBinding (h.get?_twins hm name)))
  | limitRecursion place limit =>
      refine h.withModule_goes hs place fun m m' _ hm => ?_
      exact Ends.goes (value (h.limitRecursion hm.home limit) Reply.given_done)
  | drop place =>
      refine h.withModule_goes hs place fun m m' _ hm => ?_
      exact Ends.goes (value (h.drop hm.home) Reply.given_done)
  | get place name =>
      refine h.withModule_goes hs place fun m m' _ hm => ?_
      exact Ends.goes (value h (Reply.given_ofBinding (h.get?_twins hm name)))
  | gateway place name =>
      refine h.withModule_goes hs place fun m m' _ hm => ?_
      refine ((h.gateway_ends hm name).bind fun M g g' v v' _ _ hv hg => ?_).goes
      exact value hv (Reply.Given.callable ⟨.gateway hg.twin, Callable.known_gateway hg.known⟩)
  | native n =>
      exact Ends.goes (value h (Reply.Given.callable ⟨.native n, Callable.known_native n⟩))
  | assemble place d origin captures =>
      refine h.withModule_goes hs place fun m m' _ hm => ?_
      exact h.newFunction_goes hm.home d origin captures
        (fun f => return Reply.callable (.function f))
        fun σ M f f' v v' _ _ hv hf => Ends.goes (value hv (Reply.Given.callable hf))
  | convert object =>
      refine h.withObject_goes hs object fun c c' _ hc => ?_
      exact ((h.convert_ends hc).bind fun M a a' v v' _ _ hv ha =>
        value hv (Reply.Given.callable ha)).goes
  | apply object args =>
      refine h.withObject_goes hs object fun c c' hobject hc => ?_
      rw [Session.Command.asks, hobject] at asked
      obtain ⟨hbound, hasks⟩ := List.append_subset.mp asked
      refine ((h.apply_ends free (World.asked_of_boundAsks hbound) hc hasks args).bind
        fun M a a' v v' _ _ hv ha => ?_).goes
      subst ha
      exact value hv (Reply.given_value a)
  | call object args keywords =>
      refine h.withObject_goes hs object fun c c' hobject hc => ?_
      rw [Session.Command.asks, hobject] at asked
      have hkeywords := hs.keywords keywords
      generalize s.keywords keywords = ks at hkeywords asked ⊢
      generalize s'.keywords keywords = ks' at hkeywords ⊢
      cases hkeywords with
      | none => exact Ends.goes (value h Reply.given_missing)
      | @some ks ks' hks =>
          obtain ⟨hbound, hasks⟩ := List.append_subset.mp asked
          have hcall := h.callKeywords_ends free (World.asked_of_boundAsks hbound) hc hks hasks args
          dsimp only
          generalize c.callKeywords? args ks = x at hcall ⊢
          generalize c'.callKeywords? args ks' = y at hcall ⊢
          cases hcall with
          | none => exact Ends.goes (value h Reply.given_missing)
          | some hends =>
              exact (hends.bind fun M p p' v v' _ _ hv hp =>
                value hv (Reply.given_ofProduct hp)).goes
  | bind object keywords =>
      refine h.withGateway_goes hs object keywords fun g g' ks ks' hg hks => ?_
      exact ((h.partialApply_ends hg hks).bind fun M a a' v v' _ _ hv ha =>
        value hv (Reply.Given.callable ha)).goes
  | explain object keywords =>
      refine h.withGateway_goes hs object keywords fun g g' ks ks' hg hks => ?_
      refine ((h.explain_ends hg hks).bind fun M a a' v v' _ _ hv ha => ?_).goes
      subst ha
      exact value hv ⟨.text a, nofun⟩
  | clearCache => exact Ends.goes (value h.clear Reply.given_done)

end Engine

/-! ## Sessions with and without a cache -/

/-- Sessions of two engines, the second of which keeps nothing. -/
structure Session.Twin (ρ : Renumbering) (streams : List KeyStream) (L : Ledger) (s s' : Session) :
    Prop where
  engine : Engine ρ streams L s.world s'.world
  client : s.client.Twin ρ L s'.client

namespace Session

variable {s s' : Session}

/-- Nothing is there at the start. -/
theorem twin_start (settings : Settings) (cache : Bool) (streams : List KeyStream) :
    Twin (.within (fun _ => False) fun _ => False) streams .empty
      (.start { settings with cache }) (.start { settings with cache := false }) where
  engine :=
    { twin := ⟨nofun, nofun, nofun, nofun, rfl, Nat.le_refl _, rfl⟩
      limit := nofun
      maxRecursion := rfl
      uncached := rfl
      books := ⟨nofun, nofun, nofun, nofun⟩
      kept := nofun }
  client := ⟨.nil, .nil⟩

/-- On a command the clients are told the same, and the sessions go on alike. -/
theorem Twin.step (h : s.Twin ρ streams L s') (free : CollisionFree streams) (c : Command)
    (asked : c.asks s.client s.world ⊆ streams) :
    ∃ σ M, ρ ≤ σ ∧ L ≤ M ∧ Outcomes (Reply.Twin σ) (s.step c).1 (s'.step c).1 ∧
      (s.step c).2.Twin σ streams M (s'.step c).2 := by
  obtain ⟨σ, hσ, M, hM, hengine, hout⟩ := h.engine.run_goes free h.client c asked
  have hclient := h.client.mono hσ hM
  refine ⟨σ, M, hσ, hM, ?_⟩
  rw [Session.step, Session.step]
  generalize c.run s.client s.world = p at hengine hout ⊢
  generalize c.run s'.client s'.world = q at hengine hout ⊢
  obtain ⟨r, w⟩ := p
  obtain ⟨r', w'⟩ := q
  cases hout with
  | ok hr => exact ⟨.ok hr.twin, hengine, hclient.take hr⟩
  | error e => exact ⟨.error e, hengine, hclient⟩

/-- In the course of a history the clients are told the same. -/
theorem Twin.replies (h : s.Twin ρ streams L s') (free : CollisionFree streams)
    (history : List Command) (asked : s.asks history ⊆ streams) :
    ∃ σ, ρ ≤ σ ∧
      List.Forall₂ (Outcomes (Reply.Twin σ)) (s.replies history) (s'.replies history) := by
  induction history generalizing ρ L s s' with
  | nil => exact ⟨ρ, ρ.le_refl, .nil⟩
  | cons c rest ih =>
      obtain ⟨hc, hrest⟩ := List.append_subset.mp asked
      obtain ⟨σ, M, hσ, -, hreply, hnext⟩ := h.step free c hc
      obtain ⟨τ, hτ, hreplies⟩ := ih hnext hrest
      refine ⟨τ, Renumbering.le_trans hσ hτ, .cons ?_ hreplies⟩
      generalize (s.step c).1 = r at hreply ⊢
      generalize (s'.step c).1 = r' at hreply ⊢
      cases hreply with
      | ok hr => exact .ok (hr.mono hτ)
      | error e => exact .error e

/-- The sessions after a history are alike. -/
theorem Twin.after (h : s.Twin ρ streams L s') (free : CollisionFree streams)
    (history : List Command) (asked : s.asks history ⊆ streams) :
    ∃ σ M, ρ ≤ σ ∧ L ≤ M ∧ (s.after history).Twin σ streams M (s'.after history) := by
  induction history generalizing ρ L s s' with
  | nil => exact ⟨ρ, L, ρ.le_refl, Ledger.le_refl L, h⟩
  | cons c rest ih =>
      obtain ⟨hc, hrest⟩ := List.append_subset.mp asked
      obtain ⟨σ, M, hσ, hM, -, hnext⟩ := h.step free c hc
      obtain ⟨τ, N, hτ, hN, hafter⟩ := ih hnext hrest
      exact ⟨τ, N, Renumbering.le_trans hσ hτ, Ledger.le_trans hM hN, hafter⟩

/-- A module is loaded, and the client gets two of its functions. -/
def opening : List Command :=
  [.load "m" "m.fst" "fn g(x) { x }\n@fs fn f(x) { g(x) }\nfn h(x) { !x }", .get 0 "f", .get 0 "h"]

end Session

end Graft
