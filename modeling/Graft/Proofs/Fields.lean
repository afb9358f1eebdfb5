import Graft.Proofs.Keys

/-!
# Records tell their fields

No field of a record runs into the next one: whatever follows two fields, if the bytes are the same
then so are the fields and what follows. This holds of a number and of a text, it is kept when fields
are put one after the other or counted in a list, and so it holds of values and of identities that
nest to any depth, and of every record that is hashed.
-/

namespace Graft

/-! ## What a record does not tell -/

/-- The same number, but for the sign of zero and for what an undefined number carries. -/
def SameNumber (x y : Float) : Prop :=
  x = y ∨ (x.isNaN = true ∧ y.isNaN = true) ∨ ((x == 0) = true ∧ (y == 0) = true)

instance (x y : Float) : Decidable (SameNumber x y) := inferInstanceAs (Decidable (_ ∨ _))

/-- The same value, its numbers compared as `SameNumber` does. -/
inductive Value.Alike : Value → Value → Prop
  | num {x y : Float} : SameNumber x y → Value.Alike (.num x) (.num y)
  | bool (b : Bool) : Value.Alike (.bool b) (.bool b)
  | array {xs ys : Array Float} : List.Forall₂ SameNumber xs.toList ys.toList →
      Value.Alike (.array xs) (.array ys)
  | tuple {vs us : List Value} : List.Forall₂ Value.Alike vs us → Value.Alike (.tuple vs) (.tuple us)
  | unit : Value.Alike .unit .unit

/-- Entries of one name whose contents are related. -/
inductive SameEntry {α : Type} (R : α → α → Prop) : String × α → String × α → Prop
  | intro (name : String) {a b : α} : R a b → SameEntry R (name, a) (name, b)

/-- The same object as far as an identity goes: a gateway counts as its function, and substitutions
made ahead are compared one by one. -/
inductive Callable.SameIdentity : Callable → Callable → Prop
  | function {c c' : Callable} {f f' : Function} : c.plain? = some f → c'.plain? = some f' →
      f.id = f'.id → f.fingerprint = f'.fingerprint → Callable.SameIdentity c c'
  | artifact {a a' : Artifact} : a.id = a'.id →
      Callable.SameIdentity (.artifact a) (.artifact a')
  | native (n : Native) : Callable.SameIdentity (.native n) (.native n)
  | bound {i i' : Nat} {g g' : Gateway} {overrides overrides' : List (String × Callable)}
      {d d' : Digest} : g.function.id = g'.function.id →
      List.Forall₂ (SameEntry Callable.SameIdentity) overrides overrides' →
      Callable.SameIdentity (.bound i g overrides d) (.bound i' g' overrides' d')

/-- The digest takes the 32 bytes that a record gives it. -/
def Digest.Whole (d : Digest) : Prop := d.bytes.length = 32

instance (d : Digest) : Decidable d.Whole := inferInstanceAs (Decidable (_ = _))

/-- The lists in the value have lengths that fit into eight bytes. -/
inductive Value.Sized : Value → Prop
  | num (x : Float) : Value.Sized (.num x)
  | bool (b : Bool) : Value.Sized (.bool b)
  | array {xs : Array Float} : IsWord xs.size → Value.Sized (.array xs)
  | tuple {vs : List Value} : IsWord vs.length → (∀ v ∈ vs, Value.Sized v) → Value.Sized (.tuple vs)
  | unit : Value.Sized .unit

/-- The numbers and the lengths that an identity tells fit into eight bytes, and its digests are
whole. -/
inductive Callable.Sized : Callable → Prop
  | function {c : Callable} {f : Function} : c.plain? = some f → IsWord f.id →
      f.fingerprint.Whole → Callable.Sized c
  | artifact {a : Artifact} : IsWord a.id → Callable.Sized (.artifact a)
  | native (n : Native) : Callable.Sized (.native n)
  | bound {i : Nat} {g : Gateway} {overrides : List (String × Callable)} {d : Digest} :
      IsWord g.function.id → IsWord overrides.length →
      (∀ e ∈ overrides, IsWord e.1.utf8ByteSize) → (∀ e ∈ overrides, Callable.Sized e.2) →
      Callable.Sized (.bound i g overrides d)

namespace Record

variable {α β : Type} {r r' : Record}

/-! ## Fields one after the other -/

/-- Whatever follows the fields `a` and `b`, they are told apart unless they are alike, and what
follows is told apart as well. -/
def Tells (field : α → Record) (alike : α → α → Prop) (a b : α) : Prop :=
  ∀ r r' : Record, field a ++ r = field b ++ r' ↔ alike a b ∧ r = r'

namespace Tells

variable {field : α → Record} {alike : α → α → Prop} {a b : α} {l l' : List α}

/-- Nothing needs to follow. -/
theorem eq_iff (h : Tells field alike a b) : field a = field b ↔ alike a b := by
  simpa using h [] []

theorem word {m n : Nat} (hm : IsWord m) (hn : IsWord n) : Tells word (· = ·) m n :=
  fun _ _ => ⟨word_append_inj hm hn, fun ⟨h, hr⟩ => h ▸ hr ▸ rfl⟩

theorem string {s t : String} (hs : IsWord s.utf8ByteSize) (ht : IsWord t.utf8ByteSize) :
    Tells string (· = ·) s t :=
  fun _ _ => ⟨string_append_inj hs ht, fun ⟨h, hr⟩ => h ▸ hr ▸ rfl⟩

theorem digest {d e : Digest} (hd : d.Whole) (he : e.Whole) : Tells digest (· = ·) d e := by
  refine fun r r' => ⟨fun h => ?_, fun ⟨h, hr⟩ => h ▸ hr ▸ rfl⟩
  obtain ⟨hbytes, hrest⟩ := List.append_inj h (hd.trans he.symm)
  exact ⟨congrArg Digest.mk hbytes, hrest⟩

/-- Two fields side by side. -/
theorem append {field' : β → Record} {alike' : β → β → Prop} {c d : β} (h : Tells field alike a b)
    (h' : Tells field' alike' c d) :
    Tells (fun p : α × β => field p.1 ++ field' p.2)
      (fun p q => alike p.1 q.1 ∧ alike' p.2 q.2) (a, c) (b, d) := fun r r' => by
  rw [List.append_assoc, List.append_assoc, h, h', and_assoc]

theorem entry {field : α → Record} {alike : α → α → Prop} {e e' : String × α}
    (hname : IsWord e.1.utf8ByteSize) (hname' : IsWord e'.1.utf8ByteSize)
    (h : Tells field alike e.2 e'.2) :
    Tells (fun e => Record.string e.1 ++ field e.2) (SameEntry alike) e e' := by
  refine fun r r' => ((string hname hname').append h r r').trans (and_congr_left' ⟨?_, ?_⟩)
  · obtain ⟨n, a⟩ := e
    obtain ⟨n', b⟩ := e'
    rintro ⟨rfl, halike⟩
    exact .intro n halike
  · rintro ⟨n, halike⟩
    exact ⟨rfl, halike⟩

/-- As many fields on both sides. -/
theorem flatMap (hlength : l.length = l'.length)
    (h : ∀ a ∈ l, ∀ b ∈ l', Tells field alike a b) (r r' : Record) :
    l.flatMap field ++ r = l'.flatMap field ++ r' ↔ List.Forall₂ alike l l' ∧ r = r' := by
  induction l generalizing l' with
  | nil =>
      obtain rfl := List.length_eq_zero_iff.mp hlength.symm
      simp
  | cons a rest ih =>
      obtain _ | ⟨b, rest'⟩ := l'
      · cases hlength
      · have hhead := h a List.mem_cons_self b List.mem_cons_self
        have htail := ih (Nat.succ.inj hlength) fun x hx y hy =>
          h x (List.mem_cons_of_mem _ hx) y (List.mem_cons_of_mem _ hy)
        rw [List.flatMap_cons, List.flatMap_cons, List.append_assoc, List.append_assoc, hhead,
          htail, List.forall₂_cons, and_assoc]

/-- A list with its length in front. -/
theorem counted (hl : IsWord l.length) (hl' : IsWord l'.length)
    (h : ∀ a ∈ l, ∀ b ∈ l', Tells field alike a b) :
    Tells (fun l => Record.word l.length ++ l.flatMap field) (List.Forall₂ alike) l l' := by
  intro r r'
  rw [List.append_assoc, List.append_assoc, word hl hl']
  constructor
  · rintro ⟨hlength, hrest⟩
    exact (flatMap hlength h r r').mp hrest
  · rintro ⟨hall, hrest⟩
    exact ⟨hall.length_eq, (flatMap hall.length_eq h r r').mpr ⟨hall, hrest⟩⟩

end Tells

/-! ## Values -/

/-- The bits that stand for a number. -/
def numberBits (x : Float) : Nat :=
  if x.isNaN then 0x7FF8000000000000 else if x == 0 then 0 else x.toBits.toNat

theorem isWord_numberBits (x : Float) : IsWord (numberBits x) := by
  unfold numberBits
  split
  · decide
  · split
    · decide
    · exact x.toBits.toNat_lt

theorem toBits_inj {x y : Float} (h : x.toBits.toNat = y.toBits.toNat) : x = y := by
  obtain ⟨⟨b, hb⟩⟩ := x
  obtain ⟨⟨c, hc⟩⟩ := y
  obtain rfl : b = c := UInt64.toNat_inj.mp h
  rfl

theorem isNaN_of_zero {x : Float} (h : (x == 0) = true) : x.isNaN = false := by
  have hzero : x.toModel.unpack.beq (0 : Float).toModel.unpack = true := h
  show x.toModel.unpack.isNaN = false
  cases hx : x.toModel.unpack with
  | notANumber =>
      rw [hx] at hzero
      cases hzero
  | _ => rfl

/-- The bits of no other number stand for the undefined ones or for the zeros. -/
theorem toBits_ne {x : Float} (hx : x.isNaN = false) (hzero : (x == 0) = false) :
    x.toBits.toNat ≠ 0x7FF8000000000000 ∧ x.toBits.toNat ≠ 0 := by
  have hreserved : Decimal.undefinedNumber.toBits.toNat = 0x7FF8000000000000 ∧
      Decimal.undefinedNumber.isNaN = true ∧ (0 : Float).toBits.toNat = 0 ∧
      ((0 : Float) == 0) = true := by
    decide +kernel
  obtain ⟨hundefined, hnan, hbits, heq⟩ := hreserved
  constructor
  · intro h
    rw [toBits_inj (h.trans hundefined.symm), hnan] at hx
    cases hx
  · intro h
    rw [toBits_inj (h.trans hbits.symm), heq] at hzero
    cases hzero

theorem numberBits_cases (x : Float) :
    (x.isNaN = true ∧ (x == 0) = false ∧ numberBits x = 0x7FF8000000000000) ∨
    (x.isNaN = false ∧ (x == 0) = true ∧ numberBits x = 0) ∨
    (x.isNaN = false ∧ (x == 0) = false ∧ numberBits x = x.toBits.toNat) := by
  unfold numberBits
  cases hnan : x.isNaN with
  | true =>
      have hzero : (x == 0) = false := by
        by_contra h
        rw [isNaN_of_zero (eq_true_of_ne_false h)] at hnan
        cases hnan
      exact .inl ⟨rfl, hzero, rfl⟩
  | false =>
      cases hzero : x == 0 with
      | true => exact .inr (.inl ⟨rfl, rfl, rfl⟩)
      | false => exact .inr (.inr ⟨rfl, rfl, rfl⟩)

theorem numberBits_eq_iff {x y : Float} : numberBits x = numberBits y ↔ SameNumber x y := by
  constructor
  · intro h
    obtain ⟨hx, -, hbits⟩ | ⟨-, hx, hbits⟩ | ⟨hx, hx', hbits⟩ := numberBits_cases x <;>
      obtain ⟨hy, -, hbits'⟩ | ⟨-, hy, hbits'⟩ | ⟨hy, hy', hbits'⟩ := numberBits_cases y <;>
      rw [hbits, hbits'] at h
    · exact .inr (.inl ⟨hx, hy⟩)
    · cases h
    · exact absurd h.symm (toBits_ne hy hy').1
    · cases h
    · exact .inr (.inr ⟨hx, hy⟩)
    · exact absurd h.symm (toBits_ne hy hy').2
    · exact absurd h (toBits_ne hx hx').1
    · exact absurd h (toBits_ne hx hx').2
    · exact .inl (toBits_inj h)
  · rintro (rfl | ⟨hx, hy⟩ | ⟨hx, hy⟩)
    · rfl
    · rw [numberBits, if_pos hx, numberBits, if_pos hy]
    · rw [numberBits, isNaN_of_zero hx, if_neg Bool.false_ne_true, if_pos hx, numberBits,
        isNaN_of_zero hy, if_neg Bool.false_ne_true, if_pos hy]

theorem Tells.number (x y : Float) : Tells number SameNumber x y := fun r r' =>
  (Tells.word (isWord_numberBits x) (isWord_numberBits y) r r').trans
    (and_congr_left' numberBits_eq_iff)

theorem values_eq (vs : List Value) : value.values vs = vs.flatMap value := by
  induction vs with
  | nil => rfl
  | cons v rest ih => rw [value.values, ih, List.flatMap_cons]

/-- The byte at the front of a value. -/
def sortByte : Value → UInt8
  | .num _ => 0
  | .bool _ => 1
  | .array _ => 2
  | .tuple _ => 3
  | .unit => 4

/-- What follows the byte at the front of a value. -/
def parts : Value → Record
  | .num x => number x
  | .bool b => [if b then 1 else 0]
  | .array xs => word xs.size ++ xs.toList.flatMap number
  | .tuple vs => word vs.length ++ vs.flatMap value
  | .unit => []

theorem value_eq (v : Value) : value v = sortByte v :: parts v := by
  cases v with
  | tuple vs => rw [value, values_eq]; rfl
  | _ => rw [value]; rfl

end Record

theorem Value.Alike.sortByte {v u : Value} (h : v.Alike u) :
    Record.sortByte v = Record.sortByte u := by
  cases h <;> rfl

namespace Record

namespace Tells

variable {v u : Value}

theorem of_parts (h : sortByte v = sortByte u → ∀ r r' : Record,
    parts v ++ r = parts u ++ r' ↔ v.Alike u ∧ r = r') : Tells value Value.Alike v u := by
  intro r r'
  rw [value_eq, value_eq, List.cons_append, List.cons_append, List.cons.injEq]
  constructor
  · rintro ⟨hsort, hparts⟩
    exact (h hsort r r').mp hparts
  · rintro ⟨halike, hrest⟩
    exact ⟨halike.sortByte, (h halike.sortByte r r').mpr ⟨halike, hrest⟩⟩

/-- Values are told apart at any depth. -/
theorem value (hv : v.Sized) (hu : u.Sized) : Tells value Value.Alike v u := by
  refine of_parts fun hsort r r' => ?_
  induction hv generalizing u r r' with
  | num x =>
      cases u with
      | num y => exact (number x y r r').trans (and_congr_left' ⟨.num, fun | .num h => h⟩)
      | _ => simp [sortByte] at hsort
  | bool b =>
      cases u with
      | bool c =>
          have hbyte : ∀ b c : Bool, ((if b then 1 else 0 : UInt8) = if c then 1 else 0) ↔ b = c := by
            decide
          refine List.cons_eq_cons.trans (and_congr_left' ((hbyte b c).trans ⟨?_, ?_⟩))
          · rintro rfl
            exact .bool b
          · rintro ⟨⟩
            rfl
      | _ => simp [sortByte] at hsort
  | array hsize =>
      cases hu with
      | array hsize' =>
          have htells := counted hsize hsize' fun x _ y _ => number x y
          exact (htells r r').trans (and_congr_left' ⟨.array, fun | .array h => h⟩)
      | _ => simp [sortByte] at hsort
  | tuple hlength hall ih =>
      cases hu with
      | tuple hlength' hall' =>
          have htells := counted hlength hlength' fun x hx y hy =>
            of_parts (ih x hx (hall' y hy))
          exact (htells r r').trans (and_congr_left' ⟨.tuple, fun | .tuple h => h⟩)
      | _ => simp [sortByte] at hsort
  | unit =>
      cases u with
      | unit => simp [parts, Value.Alike.unit]
      | _ => simp [sortByte] at hsort

end Tells

end Record

/-! ## Identities -/

namespace Callable

variable {c c' : Callable} {f f' : Function}

/-- What follows the word at the front of an identity. -/
def identityParts : Callable → Record
  | .function f | .gateway ⟨_, f⟩ => Record.word f.id ++ Record.digest f.fingerprint
  | .artifact a => Record.word a.id
  | .native n => Record.string n.name
  | .bound _ g overrides _ =>
    Record.word g.function.id ++ (Record.word overrides.length ++
      overrides.flatMap fun e => Record.string e.1 ++ e.2.identity)

theorem identities_eq (entries : List (String × Callable)) :
    identity.identities entries =
      entries.flatMap fun e => Record.string e.1 ++ e.2.identity := by
  induction entries with
  | nil => rfl
  | cons e rest ih => rw [identity.identities, ih, List.flatMap_cons]

theorem identity_eq (c : Callable) : c.identity = Record.string c.mark ++ c.identityParts := by
  cases c with
  | bound i g overrides d =>
      simp only [identity, identities_eq, mark, identityParts, List.append_assoc]
  | _ => simp only [identity, identity.ofFunction, mark, identityParts, List.append_assoc]

theorem of_plain (h : c.plain? = some f) :
    c.mark = "fn" ∧ c.identityParts = Record.word f.id ++ Record.digest f.fingerprint := by
  cases c with
  | function g | gateway g =>
      cases h
      exact ⟨rfl, rfl⟩
  | _ => cases h

theorem SameIdentity.mark (h : c.SameIdentity c') : c.mark = c'.mark := by
  cases h with
  | function hc hc' => rw [(of_plain hc).1, (of_plain hc').1]
  | _ => rfl

end Callable

namespace Record.Tells

variable {c c' : Callable}

theorem of_identityParts (h : c.mark = c'.mark → ∀ r r' : Record,
    c.identityParts ++ r = c'.identityParts ++ r' ↔ c.SameIdentity c' ∧ r = r') :
    Tells Callable.identity Callable.SameIdentity c c' := by
  intro r r'
  rw [Callable.identity_eq, Callable.identity_eq, List.append_assoc, List.append_assoc,
    string c.isWord_mark c'.isWord_mark]
  constructor
  · rintro ⟨hmark, hparts⟩
    exact (h hmark r r').mp hparts
  · rintro ⟨hsame, hrest⟩
    exact ⟨hsame.mark, (h hsame.mark r r').mpr ⟨hsame, hrest⟩⟩

theorem identity_plain {f f' : Function} (hc : c.plain? = some f) (hc' : c'.plain? = some f')
    (hf : IsWord f.id) (hf' : IsWord f'.id) (whole : f.fingerprint.Whole)
    (whole' : f'.fingerprint.Whole) (r r' : Record) :
    c.identityParts ++ r = c'.identityParts ++ r' ↔ c.SameIdentity c' ∧ r = r' := by
  rw [(Callable.of_plain hc).2, (Callable.of_plain hc').2]
  have htells := (word hf hf').append (digest whole whole') r r'
  refine htells.trans (and_congr_left' ⟨fun ⟨hid, hd⟩ => .function hc hc' hid hd, fun h => ?_⟩)
  cases h with
  | function hg hg' hid hd =>
      rw [hc] at hg
      rw [hc'] at hg'
      cases hg
      cases hg'
      exact ⟨hid, hd⟩
  | _ => cases hc

/-- Identities are told apart, however deep substitutions made ahead nest. -/
theorem identity (hc : c.Sized) (hc' : c'.Sized) :
    Tells Callable.identity Callable.SameIdentity c c' := by
  refine of_identityParts fun hmark r r' => ?_
  induction hc generalizing c' r r' with
  | function hplain hid hwhole =>
      rw [(Callable.of_plain hplain).1] at hmark
      cases hc' with
      | function hplain' hid' hwhole' =>
          exact identity_plain hplain hplain' hid hid' hwhole hwhole' r r'
      | _ => simp [Callable.mark] at hmark
  | artifact hid =>
      cases c' with
      | artifact a' =>
          cases hc' with
          | function hplain => cases hplain
          | artifact hid' =>
              refine (word hid hid' r r').trans (and_congr_left' ⟨.artifact, ?_⟩)
              rintro ⟨⟩
              · contradiction
              · assumption
      | _ => simp [Callable.mark] at hmark
  | native n =>
      cases c' with
      | native n' =>
          refine (string n.isWord_name n'.isWord_name r r').trans (and_congr_left' ⟨?_, ?_⟩)
          · intro hname
            exact Native.name_inj hname ▸ .native n
          · rintro ⟨⟩
            · contradiction
            · rfl
      | _ => simp [Callable.mark] at hmark
  | bound hid hlength hnames hall ih =>
      cases c' with
      | bound i' g' overrides' d' =>
          cases hc' with
          | function hplain => cases hplain
          | bound hid' hlength' hnames' hall' =>
              have hoverrides := counted hlength hlength' fun e he e' he' =>
                entry (hnames e he) (hnames' e' he') (of_identityParts (ih e he (hall' e' he')))
              refine ((word hid hid').append hoverrides r r').trans (and_congr_left' ⟨?_, ?_⟩)
              · rintro ⟨hsame, hentries⟩
                exact .bound hsame hentries
              · rintro ⟨⟩
                · contradiction
                · exact ⟨‹_›, ‹_›⟩
      | _ => simp [Callable.mark] at hmark

end Record.Tells

/-! ## Records that are hashed -/

/-- The fields of a record that is hashed. -/
inductive Fields where
  /-- A function: its definition and what it closes over. -/
  | function (definition : Digest) (captures : List (String × Value))
  /-- An artifact: its source and the callees it is linked to. -/
  | artifact (source : Digest) (callees : List (String × Digest))
  /-- A gateway with substitutions made ahead. -/
  | bound (base : Digest) (overrides : List (String × Digest))
  /-- The key of a specialization. -/
  | key (stream : KeyStream)

namespace Fields

def record : Fields → Record
  | .function definition captures => Record.function definition captures
  | .artifact source callees => Record.artifact source callees
  | .bound base overrides => Record.bound base overrides
  | .key stream => stream.record

/-- Fields of one kind. -/
def SameKind : Fields → Fields → Prop
  | .function .., .function .. => True
  | .artifact .., .artifact .. => True
  | .bound .., .bound .. => True
  | .key _, .key _ => True
  | _, _ => False

/-- The names in a list of entries and the list itself can be counted in eight bytes. -/
structure Countable {α : Type} (entries : List (String × α)) : Prop where
  length : IsWord entries.length
  names : ∀ e ∈ entries, IsWord e.1.utf8ByteSize

/-- The numbers and the lengths that are written fit into eight bytes, and the digests are whole. -/
def Sized : Fields → Prop
  | .function definition captures =>
    definition.Whole ∧ Countable captures ∧ ∀ e ∈ captures, e.2.Sized
  | .artifact source callees =>
    source.Whole ∧ Countable callees ∧ ∀ e ∈ callees, e.2.Whole
  | .bound base overrides =>
    base.Whole ∧ Countable overrides ∧ ∀ e ∈ overrides, e.2.Whole
  | .key ⟨f, dependsOn, overrides⟩ =>
    (IsWord f.id ∧ f.fingerprint.Whole) ∧
      (IsWord dependsOn.length ∧ ∀ e ∈ dependsOn, IsWord e.1 ∧ IsWord e.2) ∧
      Countable overrides ∧ ∀ e ∈ overrides, e.2.Sized

/-- The same fields, but for what a record does not tell: substitutions are compared in the order of
their names. -/
inductive Alike : Fields → Fields → Prop
  | function (definition : Digest) {captures captures' : List (String × Value)} :
      List.Forall₂ (SameEntry Value.Alike) captures captures' →
      Alike (.function definition captures) (.function definition captures')
  | artifact (source : Digest) (callees : List (String × Digest)) :
      Alike (.artifact source callees) (.artifact source callees)
  | bound (base : Digest) {overrides overrides' : List (String × Digest)} :
      sortByName overrides = sortByName overrides' →
      Alike (.bound base overrides) (.bound base overrides')
  | key {f f' : Function} (dependsOn : List (NamespaceId × Nat))
      {overrides overrides' : List (String × Callable)} : f.id = f'.id →
      f.fingerprint = f'.fingerprint →
      List.Forall₂ (SameEntry Callable.SameIdentity) (sortByName overrides)
        (sortByName overrides') →
      Alike (.key ⟨f, dependsOn, overrides⟩) (.key ⟨f', dependsOn, overrides'⟩)

variable {α : Type}

theorem Countable.sorted {entries : List (String × α)} (h : Countable entries) :
    Countable (sortByName entries) := by
  have hperm := KeyStream.sortByName_perm entries
  exact ⟨hperm.length_eq.symm ▸ h.length, fun e he => h.names e (hperm.mem_iff.mp he)⟩

/-- Named entries, counted. -/
theorem Countable.tells {field : α → Record} {alike : α → α → Prop}
    {entries entries' : List (String × α)} (h : Countable entries) (h' : Countable entries')
    (hfield : ∀ e ∈ entries, ∀ e' ∈ entries', Record.Tells field alike e.2 e'.2) :
    Record.Tells
      (fun l => Record.word l.length ++ l.flatMap fun e => Record.string e.1 ++ field e.2)
      (List.Forall₂ (SameEntry alike)) entries entries' :=
  .counted h.length h'.length fun e he e' he' =>
    .entry (h.names e he) (h'.names e' he') (hfield e he e' he')

/-- Named digests, counted. -/
theorem Countable.tells_digests {entries entries' : List (String × Digest)}
    (h : Countable entries) (h' : Countable entries') (whole : ∀ e ∈ entries, e.2.Whole)
    (whole' : ∀ e ∈ entries', e.2.Whole) :
    Record.Tells
      (fun l => Record.word l.length ++ l.flatMap fun e => Record.string e.1 ++ Record.digest e.2)
      (· = ·) entries entries' := by
  have hsame : SameEntry (· = ·) = (· = · : String × Digest → String × Digest → Prop) := by
    funext e e'
    refine propext ⟨?_, ?_⟩
    · rintro ⟨n, rfl⟩
      rfl
    · rintro rfl
      exact .intro e.1 rfl
  have htells := h.tells h' fun e he e' he' => Record.Tells.digest (whole e he) (whole' e' he')
  rwa [hsame, List.forall₂_eq_eq_eq] at htells

/-- Namespaces with their generations, counted. -/
theorem tells_dependsOn {dependsOn dependsOn' : List (NamespaceId × Nat)}
    (h : IsWord dependsOn.length) (h' : IsWord dependsOn'.length)
    (words : ∀ e ∈ dependsOn, IsWord e.1 ∧ IsWord e.2)
    (words' : ∀ e ∈ dependsOn', IsWord e.1 ∧ IsWord e.2) :
    Record.Tells
      (fun l => Record.word l.length ++ l.flatMap fun e => Record.word e.1 ++ Record.word e.2)
      (· = ·) dependsOn dependsOn' := by
  have hpair : ∀ e ∈ dependsOn, ∀ e' ∈ dependsOn',
      Record.Tells (fun e : NamespaceId × Nat => Record.word e.1 ++ Record.word e.2) (· = ·) e e' :=
    fun e he e' he' r r' =>
      ((Record.Tells.word (words e he).1 (words' e' he').1).append
        (Record.Tells.word (words e he).2 (words' e' he').2) r r').trans
        (and_congr_left' Prod.ext_iff.symm)
  have htells := Record.Tells.counted h h' hpair
  rwa [List.forall₂_eq_eq_eq] at htells

theorem function_eq_iff {d d' : Digest} {captures captures' : List (String × Value)}
    (h : (Fields.function d captures).Sized) (h' : (Fields.function d' captures').Sized) :
    Record.function d captures = Record.function d' captures' ↔
      (Fields.function d captures).Alike (.function d' captures') := by
  obtain ⟨hd, hcount, hsized⟩ := h
  obtain ⟨hd', hcount', hsized'⟩ := h'
  have hcaptures := hcount.tells hcount' fun e he e' he' =>
    Record.Tells.value (hsized e he) (hsized' e' he')
  simp only [Record.function, List.append_assoc, List.append_cancel_left_eq]
  refine ((Record.Tells.digest hd hd').append hcaptures).eq_iff.trans ⟨?_, ?_⟩
  · rintro ⟨rfl, hall⟩
    exact .function d hall
  · rintro ⟨⟩
    exact ⟨rfl, ‹_›⟩

theorem artifact_eq_iff {d d' : Digest} {callees callees' : List (String × Digest)}
    (h : (Fields.artifact d callees).Sized) (h' : (Fields.artifact d' callees').Sized) :
    Record.artifact d callees = Record.artifact d' callees' ↔
      (Fields.artifact d callees).Alike (.artifact d' callees') := by
  obtain ⟨hd, hcount, hwhole⟩ := h
  obtain ⟨hd', hcount', hwhole'⟩ := h'
  have hcallees := hcount.tells_digests hcount' hwhole hwhole'
  simp only [Record.artifact, List.append_assoc, List.append_cancel_left_eq]
  refine ((Record.Tells.digest hd hd').append hcallees).eq_iff.trans ⟨?_, ?_⟩
  · rintro ⟨rfl, rfl⟩
    exact .artifact d callees
  · rintro ⟨⟩
    exact ⟨rfl, rfl⟩

theorem bound_eq_iff {d d' : Digest} {overrides overrides' : List (String × Digest)}
    (h : (Fields.bound d overrides).Sized) (h' : (Fields.bound d' overrides').Sized) :
    Record.bound d overrides = Record.bound d' overrides' ↔
      (Fields.bound d overrides).Alike (.bound d' overrides') := by
  obtain ⟨hd, hcount, hwhole⟩ := h
  obtain ⟨hd', hcount', hwhole'⟩ := h'
  have hperm := KeyStream.sortByName_perm overrides
  have hperm' := KeyStream.sortByName_perm overrides'
  have hoverrides := hcount.sorted.tells_digests hcount'.sorted
    (fun e he => hwhole e (hperm.mem_iff.mp he)) fun e he => hwhole' e (hperm'.mem_iff.mp he)
  have htells := ((Record.Tells.digest hd hd').append hoverrides).eq_iff
  simp only [Record.bound, List.append_assoc, List.append_cancel_left_eq]
  simp only [hperm.length_eq, hperm'.length_eq] at htells
  refine htells.trans ⟨?_, ?_⟩
  · rintro ⟨rfl, hsorted⟩
    exact .bound d hsorted
  · rintro ⟨⟩
    exact ⟨rfl, ‹_›⟩

theorem key_eq_iff {k k' : KeyStream} (h : (Fields.key k).Sized) (h' : (Fields.key k').Sized) :
    k.record = k'.record ↔ (Fields.key k).Alike (.key k') := by
  obtain ⟨f, dependsOn, overrides⟩ := k
  obtain ⟨f', dependsOn', overrides'⟩ := k'
  obtain ⟨⟨hid, hd⟩, ⟨hlength, hwords⟩, hcount, hsized⟩ := h
  obtain ⟨⟨hid', hd'⟩, ⟨hlength', hwords'⟩, hcount', hsized'⟩ := h'
  have hperm := KeyStream.sortByName_perm overrides
  have hperm' := KeyStream.sortByName_perm overrides'
  have hfunction := (Record.Tells.word hid hid').append (Record.Tells.digest hd hd')
  have hdependsOn := tells_dependsOn hlength hlength' hwords hwords'
  have hoverrides := hcount.sorted.tells hcount'.sorted fun e he e' he' =>
    Record.Tells.identity (hsized e (hperm.mem_iff.mp he)) (hsized' e' (hperm'.mem_iff.mp he'))
  have htells := ((hfunction.append hdependsOn).append hoverrides).eq_iff
  simp only [KeyStream.record, CacheKey.record, List.append_assoc, List.append_cancel_left_eq]
  simp only [hperm.length_eq, hperm'.length_eq, List.append_assoc] at htells
  refine htells.trans ⟨?_, ?_⟩
  · rintro ⟨⟨⟨hids, hdigests⟩, rfl⟩, hall⟩
    exact .key dependsOn hids hdigests hall
  · rintro ⟨⟩
    exact ⟨⟨⟨‹_›, ‹_›⟩, rfl⟩, ‹_›⟩

/-- Records of one kind are equal only if their fields are. -/
theorem record_eq_iff {h h' : Fields} (kind : h.SameKind h') (sized : h.Sized)
    (sized' : h'.Sized) : h.record = h'.record ↔ h.Alike h' := by
  cases h with
  | function d captures =>
      cases h' with
      | function d' captures' => exact function_eq_iff sized sized'
      | _ => exact kind.elim
  | artifact source callees =>
      cases h' with
      | artifact source' callees' => exact artifact_eq_iff sized sized'
      | _ => exact kind.elim
  | bound base overrides =>
      cases h' with
      | bound base' overrides' => exact bound_eq_iff sized sized'
      | _ => exact kind.elim
  | key k =>
      cases h' with
      | key k' => exact key_eq_iff sized sized'
      | _ => exact kind.elim

/-- A function of no module that is still there. -/
def loose : Function := .build 2 default .interactive 1 []

/-- A key with substitutions made ahead for a function that is itself such a substitution. -/
def nestedKey (c : Callable) (i : Nat) : KeyStream :=
  ⟨loose, [(1, 4)],
    [("a", .bound i ⟨3, loose⟩ [("b", .bound (i + 1) ⟨3, loose⟩ [("c", c)] .zero)] .zero)]⟩

theorem nestedKey_sized {c : Callable} (h : c.Sized) (i : Nat) :
    (Fields.key (nestedKey c i)).Sized := by
  have hone : ∀ {n : String} {c : Callable}, IsWord n.utf8ByteSize → c.Sized →
      Countable [(n, c)] ∧ ∀ e ∈ [(n, c)], e.2.Sized := fun hn hc =>
    ⟨⟨show IsWord 1 by decide, fun e he => List.mem_singleton.mp he ▸ hn⟩,
      fun e he => List.mem_singleton.mp he ▸ hc⟩
  have hbound : ∀ {n : String} {c : Callable} (i : Nat), IsWord n.utf8ByteSize → c.Sized →
      (Callable.bound i ⟨3, loose⟩ [(n, c)] .zero).Sized := fun i hn hc =>
    .bound (by decide) (hone hn hc).1.length (hone hn hc).1.names (hone hn hc).2
  exact ⟨⟨by decide, rfl⟩, by decide, hone (by decide) (hbound _ (by decide) (hbound _ (by decide) h))⟩

theorem record_eq_iff_nested :
    (Fields.key (nestedKey (.gateway ⟨5, loose⟩) 6)).record =
      (Fields.key (nestedKey (.function loose) 8)).record := by
  have hsized : ∀ c i, c.plain? = some loose → (Fields.key (nestedKey c i)).Sized := fun c i hc =>
    nestedKey_sized (.function hc (by decide) rfl) i
  refine (@record_eq_iff (.key (nestedKey (.gateway ⟨5, loose⟩) 6))
    (.key (nestedKey (.function loose) 8)) trivial (hsized _ _ rfl) (hsized _ _ rfl)).mpr ?_
  have hentry : ∀ {n : String} {c c' : Callable}, c.SameIdentity c' →
      List.Forall₂ (SameEntry Callable.SameIdentity) [(n, c)] [(n, c')] := fun h =>
    .cons (.intro _ h) .nil
  refine .key _ rfl rfl ?_
  simp only [sortByName, List.mergeSort_singleton]
  exact hentry (.bound rfl (hentry (.bound rfl (hentry (.function rfl rfl rfl rfl)))))

/-- The sign of zero does not count, the nesting does. -/
example : (Record.value (.tuple [.num 0, .array #[1, 2]]) =
      Record.value (.tuple [.num (-0), .array #[1, 2]])) ∧
    Record.value (.tuple [.num 0, .array #[1, 2]]) ≠ Record.value (.tuple [.array #[0, 1, 2]]) := by
  decide +kernel

end Fields

end Graft
