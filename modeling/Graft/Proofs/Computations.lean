import Graft.Proofs.Allocation
import Graft.Proofs.Coinciding
import Graft.Proofs.Fields
import Graft.Proofs.Fingerprints
import Graft.Proofs.Relinking
import Graft.Proofs.Spanless

/-!
# Fingerprints of artifacts

The fingerprint of an artifact tells its function as it is printed, the values that the function closes
over, and the fingerprints of what its names are linked to. It does not tell the constants of the
module, whose values are part of the code. So artifacts with one fingerprint do the same if the
functions that they were made from come to the same constants.

The functions are compared as trees without spans, under the scopes of their code. By induction on what
is linked, names with one fingerprint behave alike, and then so do the trees.
-/

namespace Graft

open Compile (Target Links)
open Correspondence (agreement)

/-! ## Values that are hashed alike -/

/-- If the number is zero, it has no sign. -/
def PlainZero (x : Float) : Prop := (x == 0) = true → x = 0

/-- There is one number that is undefined. -/
theorem eq_of_isNaN {x y : Float} (hx : x.isNaN = true) (hy : y.isNaN = true) : x = y := by
  -- only the one canonical form is undefined
  have packed : ∀ {z : Float}, z.isNaN = true →
      z.toModel.toBits.toBitVec = Float.Model.UnpackedFloat.packedNaN .binary64 := by
    intro z hz
    have hunpack : z.toModel.unpack.isNaN = true := hz
    rw [Float.Model.unpack, Float.Model.UnpackedFloat.unpack] at hunpack
    dsimp only at hunpack
    split at hunpack
    · next hexponent =>
        split at hunpack
        · cases hunpack
        · next hmantissa => exact z.toModel.valid.eq_packedNaN hexponent hmantissa
    · split at hunpack
      · split at hunpack <;> cases hunpack
      · cases hunpack
  have hbits : x.toModel.toBits = y.toModel.toBits :=
    UInt64.toBitVec_inj.mp ((packed hx).trans (packed hy).symm)
  exact Record.toBits_inj (congrArg UInt64.toNat hbits)

theorem SameNumber.eq {x y : Float} (h : SameNumber x y) (hx : PlainZero x) (hy : PlainZero y) :
    x = y := by
  obtain heq | ⟨hnan, hnan'⟩ | ⟨hzero, hzero'⟩ := h
  · exact heq
  · exact eq_of_isNaN hnan hnan'
  · rw [hx hzero, hy hzero']

/-- No zero in the value has a sign. -/
inductive Value.PlainZeros : Value → Prop
  | num {x : Float} : PlainZero x → PlainZeros (.num x)
  | bool (b : Bool) : PlainZeros (.bool b)
  | array {xs : Array Float} : (∀ x ∈ xs.toList, PlainZero x) → PlainZeros (.array xs)
  | tuple {vs : List Value} : (∀ v ∈ vs, PlainZeros v) → PlainZeros (.tuple vs)
  | unit : PlainZeros .unit

theorem eq_of_forall₂ {α : Type} {R : α → α → Prop} {l l' : List α} (h : List.Forall₂ R l l')
    (heq : ∀ a ∈ l, ∀ b ∈ l', R a b → a = b) : l = l' := by
  induction h with
  | nil => rfl
  | cons hab _ ih =>
      rw [heq _ List.mem_cons_self _ List.mem_cons_self hab,
        ih fun x hx y hy => heq x (List.mem_cons_of_mem _ hx) y (List.mem_cons_of_mem _ hy)]

theorem Value.Alike.eq {v u : Value} (h : v.Alike u) (hv : v.PlainZeros) (hu : u.PlainZeros) :
    v = u := by
  induction hv generalizing u with
  | num hx =>
      cases h with
      | num hsame =>
          cases hu with
          | num hy => rw [hsame.eq hx hy]
  | bool b =>
      cases h
      rfl
  | array hxs =>
      cases h with
      | array hsame =>
          cases hu with
          | array hys =>
              have hlists := eq_of_forall₂ hsame fun x hx y hy hxy => hxy.eq (hxs x hx) (hys y hy)
              rw [Array.toList_inj.mp hlists]
  | tuple _ ih =>
      cases h with
      | tuple hsame =>
          cases hu with
          | tuple hus =>
              rw [eq_of_forall₂ hsame fun w hw z hz hwz => ih w hw hwz (hus z hz)]
  | unit =>
      cases h
      rfl

theorem Record.hash_whole (r : Record) : r.hash.Whole := by
  simp [hash, Digest.Whole, Blake3.hash, Blake3.Row.words, Blake3.wordBytes]

theorem Definition.fingerprint_whole (d : Definition) : d.fingerprint.Whole :=
  d.record.hash_whole

theorem Fields.Alike.function_inv {d d' : Digest} {captures captures' : List (String × Value)}
    (h : (Fields.function d captures).Alike (.function d' captures')) :
    d = d' ∧ List.Forall₂ (SameEntry Value.Alike) captures captures' := by
  cases h with
  | function _ hcaptures => exact ⟨rfl, hcaptures⟩

theorem Fields.Alike.artifact_inv {d d' : Digest} {callees callees' : List (String × Digest)}
    (h : (Fields.artifact d callees).Alike (.artifact d' callees')) :
    d = d' ∧ callees = callees' := by
  cases h
  exact ⟨rfl, rfl⟩

/-- What is hashed of a primitive. -/
def Native.record (n : Native) : Record := Record.start .primitive ++ Record.string n.name

theorem Native.record_inj {m n : Native} (h : m.record = n.record) : m = n := by
  have hstring := List.append_cancel_left h
  rw [← List.append_nil (Record.string m.name), ← List.append_nil (Record.string n.name)] at hstring
  exact name_inj (Record.string_append_inj m.isWord_name n.isWord_name hstring).1

/-- Records of artifacts and of primitives are told apart by their kind. -/
theorem Native.record_ne_artifact (n : Native) (source : Digest) (callees : List (String × Digest)) :
    n.record ≠ Record.artifact source callees := by
  intro h
  injection h with _ h
  injection h with hkind
  cases hkind

/-! ## Functions whose names behave alike -/

section

variable {σ α : Type}

theorem agreement_ofExcept {x y : Except Fault α} (h : Agree x y) :
    agreement.Runs Eq (Run.ofExcept x : Run σ α) (Run.ofExcept y) := by
  cases x <;> cases y
  · exact .throw h
  · exact h.elim
  · exact h.elim
  · exact .pure h

theorem agree_of_runs {x y : Run Unit α} (h : agreement.Runs Eq x y) : Agree (x ()).1 (y ()).1 := by
  obtain ⟨a, b, s, t, hx, hy, rfl, -⟩ | ⟨e, e', s, t, hx, hy, he, -⟩ | ⟨e, s, -, he⟩ :=
    (h () () rfl).cases
  · rw [hx, hy]
  · rw [hx, hy]
    exact he
  · exact he.elim

/-- It does not matter where the path of a primitive stands. -/
theorem member?_agrees (p : Path) (span span' : Span) (args : List Value) :
    agreement.Runs Eq
      (do
        let n ← Run.ofOutcome (Calls.member? p span)
        Run.ofOutcome (n.call args) : Run σ Value)
      (do
        let n ← Run.ofOutcome (Calls.member? p span')
        Run.ofOutcome (n.call args)) := by
  have hmember : agreement.Runs Eq (Run.ofOutcome (Calls.member? p span) : Run σ Native)
      (Run.ofOutcome (Calls.member? p span')) := by
    rw [Calls.member?, Calls.member?]
    split
    · split
      · exact .pure rfl
      · exact .throw trivial
    · exact .throw trivial
  refine hmember.bind fun n m hnm => ?_
  rw [hnm]
  exact .ofOutcome _

/-- The scope that reads the names in `early` as the first scope does, and all others as the second
one, and calls as the first one does. -/
def Scope.early (names : List String) (scope scope' : Scope σ) : Scope σ where
  outer n span := if n ∈ names then scope.outer n span else scope'.outer n span
  call := scope.call

theorem Scope.early_agreeOn (names : List String) (scope scope' : Scope σ) :
    scope.AgreeOn (· ∈ names) (scope.early names scope') where
  reads n hn := by
    funext span
    exact (if_pos hn).symm
  calls := rfl

end

theorem Block.mem_calledNames {b : Block} {n : String} :
    n ∈ b.calledNames ↔ b.Calls ⟨n, []⟩ := by
  rw [calledNames, Ordered.mem_ofList, List.mem_filterMap, Calls]
  simp only [Path.single?_eq_some]

namespace Function

variable {env env' : Linker} {f f' : Function} {link link' : String → Target} {fuel : Nat}

theorem linkedScope_reads {n : String}
    (h : (Compile.Context.settled env f link).outer? n =
      (Compile.Context.settled env' f' link').outer? n) (span span' : Span) :
    agreement.Runs Eq ((f.linkedScope env link fuel).outer n span)
      ((f'.linkedScope env' link' fuel).outer n span') := by
  apply agreement_ofExcept
  rw [Compile.Context.outerValue, Compile.Context.outerValue, h]
  cases (Compile.Context.settled env' f' link').outer? n with
  | some v => exact .refl _
  | none => trivial

theorem linkedScope_calls {p : Path}
    (h : ∀ n, p.single? = some n → ∀ args, Agree ((link n).run fuel args) ((link' n).run fuel args))
    (args : List Value) (span span' : Span) :
    agreement.Runs Eq ((f.linkedScope env link fuel).call p args span)
      ((f'.linkedScope env' link' fuel).call p args span') := by
  simp only [linkedScope]
  cases hp : p.single? with
  | none => exact member?_agrees p span span' args
  | some n => exact agreement_ofExcept (h n hp args)

/-- Functions that differ in spans only do the same if they come to the same values outside and their
names are linked to what behaves alike. -/
theorem value_agrees (herase : f.definition.erase = f'.definition.erase)
    (hreads : ∀ n ∈ f.definition.body.early f.params,
      (Compile.Context.settled env f link).outer? n =
        (Compile.Context.settled env' f' link').outer? n)
    (hcalls : ∀ n ∈ f.definition.body.calledNames, ∀ args,
      Agree ((link n).run fuel args) ((link' n).run fuel args))
    {args : List Value} (hargs : args.length = f.arity) :
    Agree (f.definition.value (f.linkedScope env link fuel) fuel args ()).1
      (f'.definition.value (f'.linkedScope env' link' fuel) fuel args ()).1 := by
  -- the run does not come to other names outside, so they may be read as by the other function
  have hearly := Definition.value_coincides
    (Scope.early_agreeOn (f.definition.body.early f.params) (f.linkedScope env link fuel)
      (f'.linkedScope env' link' fuel)) (fun _ hn => hn) fuel hargs
  have hmatches : Scope.Matches
      ⟨fun _ => True, fun p => True ∧ f.definition.body.Calls p⟩
      ((f.linkedScope env link fuel).early (f.definition.body.early f.params)
        (f'.linkedScope env' link' fuel)) (f'.linkedScope env' link' fuel) := by
    constructor
    · intro n span span'
      by_cases hn : n ∈ f.definition.body.early f.params
      · simp only [Scope.early, if_pos hn]
        exact linkedScope_reads (hreads n hn) span span'
      · simp only [Scope.early, if_neg hn]
        exact linkedScope_reads rfl span span'
    · rintro p args span span' ⟨-, hp⟩
      show agreement.Runs Eq ((f.linkedScope env link fuel).call p args span) _
      refine linkedScope_calls (fun n hn => ?_) args span span'
      obtain rfl := Path.single?_eq_some.mp hn
      exact hcalls n (Block.mem_calledNames.mpr hp)
  have hself : (f'.linkedScope env' link' fuel).Matches .all (f'.linkedScope env' link' fuel) :=
    ⟨fun n span span' => linkedScope_reads rfl span span',
      fun p args span span' _ => linkedScope_calls (fun n _ args => .refl _) args span span'⟩
  have hleft := agree_of_runs (Definition.value_erase hmatches f.definition
    (Block.within_calls (Names.within_all _)) fuel args)
  have hright := agree_of_runs
    (Definition.value_erase hself f'.definition (Names.within_all _) fuel args)
  rw [hearly]
  rw [herase] at hleft
  exact hleft.trans hright.symm

end Function

/-! ## Artifacts and what is hashed for them -/

/-- Functions, each with the bindings that it is compiled against. -/
abbrev Compile.Units := Linker → Function → Prop

namespace Artifact

/-- The artifact was compiled from one of the units, and so was every artifact that is linked into
it. -/
inductive MadeFrom (S : Compile.Units) : Artifact → Prop
  | intro {a : Artifact} {env : Linker} {f : Function} {link : String → Target} : S env f →
      a.CompiledFrom env f link →
      (∀ n b, n ∈ f.definition.body.calledNames → link n = .artifact b → MadeFrom S b) →
      MadeFrom S a

/-- The record is hashed for the artifact or for what is linked into it. -/
inductive Hashes (S : Compile.Units) : Artifact → Record → Prop
  | definition {a : Artifact} {env : Linker} {f : Function} {link : String → Target} : S env f →
      a.CompiledFrom env f link → Hashes S a f.definition.record
  | function {a : Artifact} {env : Linker} {f : Function} {link : String → Target} : S env f →
      a.CompiledFrom env f link →
      Hashes S a (Record.function f.definition.fingerprint f.captures)
  | artifact {a : Artifact} {env : Linker} {f : Function} {link : String → Target} : S env f →
      a.CompiledFrom env f link → Hashes S a (Record.artifact f.fingerprint a.callees)
  | native {a : Artifact} {env : Linker} {f : Function} {link : String → Target} {n : String}
      {m : Native} : S env f → a.CompiledFrom env f link →
      n ∈ f.definition.body.calledNames → link n = .native m → Hashes S a m.record
  | linked {a b : Artifact} {env : Linker} {f : Function} {link : String → Target} {n : String}
      {r : Record} : S env f → a.CompiledFrom env f link →
      n ∈ f.definition.body.calledNames → link n = .artifact b → Hashes S b r → Hashes S a r

end Artifact

namespace Compile

/-- The fingerprints of the units are those of their records, and the records tell the units: no two
definitions that differ in more than spans are printed alike, no captured zero has a sign, and what is
counted can be counted in eight bytes. -/
structure Told (S : Units) : Prop where
  assembled : ∀ {env f}, S env f →
    f.fingerprint = (Record.function f.definition.fingerprint f.captures).hash
  printed : ∀ {env f env' f'}, S env f → S env' f' → f.definition.text = f'.definition.text →
    f.definition.erase = f'.definition.erase
  zeros : ∀ {env f}, S env f → ∀ e ∈ f.captures, e.2.PlainZeros
  captures : ∀ {env f}, S env f → Fields.Countable f.captures ∧ ∀ e ∈ f.captures, e.2.Sized
  calls : ∀ {env f}, S env f → IsWord f.definition.body.calledNames.length ∧
    ∀ n ∈ f.definition.body.calledNames, IsWord n.utf8ByteSize

/-- Where functions with one fingerprint may read a name before they assign it, and close over no value
of that name, the name is bound to the same constant, or to none. -/
def SameConstants (S : Units) : Prop :=
  ∀ {env f env' f'}, S env f → S env' f' → f.fingerprint = f'.fingerprint →
    ∀ n ∈ f.definition.body.early f.params, Dictionary.get? n f.captures = none →
      ∀ v, env.lookup f.home n = some (.constant v) ↔ env'.lookup f'.home n = some (.constant v)

end Compile

namespace Artifact

variable {S : Compile.Units} {a b : Artifact} {env env' : Linker} {f f' : Function}
  {link link' : String → Target}

theorem MadeFrom.whole (h : a.MadeFrom S) : a.fingerprint.Whole := by
  cases h with
  | intro _ hfrom _ =>
      rw [hfrom.embodies.fingerprint]
      exact Record.hash_whole _

/-- What an artifact is hashed from can be told from its record. -/
theorem Embodies.sized (h : a.Embodies env f link) (told : Compile.Told S) (hS : S env f)
    (hlinked : ∀ n b, n ∈ f.definition.body.calledNames → link n = .artifact b → b.MadeFrom S) :
    (Fields.artifact f.fingerprint a.callees).Sized := by
  obtain ⟨hlength, hnames⟩ := told.calls hS
  have hkeys : ∀ e ∈ a.callees, e.1 ∈ f.definition.body.calledNames := fun e he =>
    (h.names e.1).mp (List.mem_map_of_mem he)
  refine ⟨told.assembled hS ▸ Record.hash_whole _, ⟨?_, fun e he => hnames e.1 (hkeys e he)⟩, ?_⟩
  · -- no more callees are recorded than names are called
    have hsub : Dictionary.keys a.callees ⊆ f.definition.body.calledNames := fun n hn =>
      (h.names n).mp hn
    have hle := (h.distinct.subperm hsub).length_le
    rw [Dictionary.keys, List.length_map] at hle
    exact Nat.lt_of_le_of_lt hle hlength
  · intro e he
    rw [h.told e.1 e.2 he]
    cases hlink : link e.1 with
    | native m => exact Record.hash_whole m.record
    | artifact b => exact (hlinked e.1 b (hkeys e he) hlink).whole

/-- Functions with one record differ in spans only, and close over the same values. -/
theorem alike_of_record (told : Compile.Told S) (hS : S env f) (hS' : S env' f')
    (free : f.definition.record.hash = f'.definition.record.hash →
      f.definition.record = f'.definition.record)
    (h : Record.function f.definition.fingerprint f.captures =
      Record.function f'.definition.fingerprint f'.captures) :
    f.definition.erase = f'.definition.erase ∧ f.captures = f'.captures := by
  obtain ⟨hcount, hsized⟩ := told.captures hS
  obtain ⟨hcount', hsized'⟩ := told.captures hS'
  obtain ⟨hdefinition, hcaptures⟩ := ((Fields.function_eq_iff
    ⟨f.definition.fingerprint_whole, hcount, hsized⟩
    ⟨f'.definition.fingerprint_whole, hcount', hsized'⟩).mp h).function_inv
  refine ⟨told.printed hS hS' (Definition.text_eq_of_record (free hdefinition)), ?_⟩
  refine eq_of_forall₂ hcaptures fun e he e' he' hsame => ?_
  have hzeros := told.zeros hS e he
  have hzeros' := told.zeros hS' e' he'
  cases hsame with
  | intro n halike => rw [halike.eq hzeros hzeros']

theorem outer?_eq (constants : Compile.SameConstants S) (hS : S env f) (hS' : S env' f')
    (h : f.fingerprint = f'.fingerprint) (hcaptures : f.captures = f'.captures) {n : String}
    (hn : n ∈ f.definition.body.early f.params) :
    (Compile.Context.settled env f link).outer? n =
      (Compile.Context.settled env' f' link').outer? n := by
  rw [Compile.Context.outer?, Compile.Context.outer?]
  dsimp only [Compile.Context.settled]
  rw [← hcaptures]
  cases hget : Dictionary.get? n f.captures with
  | some v => rfl
  | none =>
      have hsame := constants hS hS' h n hn hget
      rcases hl : env.lookup f.home n with _ | v | c
      · rcases hl' : env'.lookup f'.home n with _ | v' | c'
        · rfl
        · exact absurd ((hsame v').mpr hl') (by simp [hl])
        · rfl
      · rw [(hsame v).mp hl]
      · rcases hl' : env'.lookup f'.home n with _ | v' | c'
        · rfl
        · exact absurd ((hsame v').mpr hl') (by simp [hl])
        · rfl

/-- A call with a wrong number of arguments is reported. -/
theorem Embodies.call_of_ne (h : a.Embodies env f link) {args : List Value}
    (hargs : args.length ≠ f.arity) (fuel : Nat) :
    ∃ d, a.call fuel args = .error (.report d) := by
  obtain ⟨info, count, steps⟩ := a
  have hparams : args.length ≠ info.definition.params.length := by
    rwa [show info.definition = f.definition from h.definition]
  rw [Artifact.call, if_pos hparams]
  exact ⟨_, rfl⟩

/-- Artifacts with one record were made of functions that differ in spans only and close over the same
values, and have the same callees. -/
theorem same_source (told : Compile.Told S) (hS : S env f) (hS' : S env' f')
    (hfrom : a.CompiledFrom env f link) (hfrom' : b.CompiledFrom env' f' link')
    (hlinked : ∀ n c, n ∈ f.definition.body.calledNames → link n = .artifact c → c.MadeFrom S)
    (hlinked' : ∀ n c, n ∈ f'.definition.body.calledNames → link' n = .artifact c → c.MadeFrom S)
    (free : ∀ r r', a.Hashes S r → b.Hashes S r' → r.hash = r'.hash → r = r')
    (h : a.fingerprint = b.fingerprint) :
    (f.fingerprint = f'.fingerprint ∧ a.callees = b.callees) ∧
      f.definition.erase = f'.definition.erase ∧ f.captures = f'.captures := by
  have embodies := hfrom.embodies
  have embodies' := hfrom'.embodies
  have hrecord := free _ _ (.artifact hS hfrom) (.artifact hS' hfrom')
    (embodies.fingerprint.symm.trans (h.trans embodies'.fingerprint))
  have hsource := ((Fields.artifact_eq_iff (embodies.sized told hS hlinked)
    (embodies'.sized told hS' hlinked')).mp hrecord).artifact_inv
  have hfunction := free _ _ (.function hS hfrom) (.function hS' hfrom')
    ((told.assembled hS).symm.trans (hsource.1.trans (told.assembled hS')))
  exact ⟨hsource, alike_of_record told hS hS'
    (free _ _ (.definition hS hfrom) (.definition hS' hfrom')) hfunction⟩

/-- Targets with one fingerprint are the same primitive, or artifacts with that fingerprint. -/
theorem target_agrees {n : String} (hS : S env f) (hS' : S env' f')
    (hfrom : a.CompiledFrom env f link) (hfrom' : b.CompiledFrom env' f' link')
    (hn : n ∈ f.definition.body.calledNames) (hn' : n ∈ f'.definition.body.calledNames)
    (hlinked : ∀ c, link n = .artifact c → c.MadeFrom S)
    (hlinked' : ∀ c, link' n = .artifact c → c.MadeFrom S)
    (free : ∀ r r', a.Hashes S r → b.Hashes S r' → r.hash = r'.hash → r = r')
    (h : (link n).fingerprint = (link' n).fingerprint) {fuel : Nat} {args : List Value}
    (hartifacts : ∀ c c', link n = .artifact c → link' n = .artifact c' →
      c.fingerprint = c'.fingerprint → Agree (c.call fuel args) (c'.call fuel args)) :
    Agree ((link n).run fuel args) ((link' n).run fuel args) := by
  cases hlink : link n with
  | native m =>
      cases hlink' : link' n with
      | native m' =>
          rw [hlink, hlink'] at h
          have hsame := free _ _ (.native hS hfrom hn hlink) (.native hS' hfrom' hn' hlink') h
          rw [Native.record_inj hsame]
      | artifact c' =>
          rw [hlink, hlink'] at h
          cases hlinked' c' hlink' with
          | intro hT hmade _ =>
              have hsame := free _ _ (.native hS hfrom hn hlink)
                (.linked hS' hfrom' hn' hlink' (.artifact hT hmade))
                (h.trans hmade.embodies.fingerprint)
              exact absurd hsame (m.record_ne_artifact _ _)
  | artifact c =>
      cases hlink' : link' n with
      | native m' =>
          rw [hlink, hlink'] at h
          cases hlinked c hlink with
          | intro hT hmade _ =>
              have hsame := free _ _ (.linked hS hfrom hn hlink (.artifact hT hmade))
                (.native hS' hfrom' hn' hlink') (hmade.embodies.fingerprint.symm.trans h)
              exact absurd hsame.symm (m'.record_ne_artifact _ _)
      | artifact c' =>
          rw [hlink, hlink'] at h
          exact hartifacts c c' hlink hlink' h

/-- Artifacts with one fingerprint do the same, as far as no records of the two share a hash. -/
theorem MadeFrom.call_agrees (told : Compile.Told S) (constants : Compile.SameConstants S)
    (ha : a.MadeFrom S) (hb : b.MadeFrom S)
    (free : ∀ r r', a.Hashes S r → b.Hashes S r' → r.hash = r'.hash → r = r')
    (h : a.fingerprint = b.fingerprint) (fuel : Nat) (args : List Value) :
    Agree (a.call fuel args) (b.call fuel args) := by
  -- by induction on what is linked into the first artifact
  induction ha generalizing b args with
  | @intro a env f link hS hfrom hlinked ih =>
      cases hb with
      | @intro _ env' f' link' hS' hfrom' hlinked' =>
          have embodies := hfrom.embodies
          have embodies' := hfrom'.embodies
          obtain ⟨⟨hsource, hcallees⟩, herase, hcaptures⟩ :=
            same_source told hS hS' hfrom hfrom' hlinked hlinked' free h
          have hcalls : ∀ n ∈ f.definition.body.calledNames, ∀ args,
              Agree ((link n).run fuel args) ((link' n).run fuel args) := by
            intro n hn args
            obtain ⟨⟨n, d⟩, hd, rfl⟩ := List.mem_map.mp ((embodies.names n).mpr hn)
            have hn' : n ∈ f'.definition.body.calledNames :=
              (embodies'.names n).mp (hcallees ▸ List.mem_map_of_mem hd)
            have hfingerprint : (link n).fingerprint = (link' n).fingerprint :=
              (embodies.told n d hd).symm.trans (embodies'.told n d (hcallees ▸ hd))
            refine target_agrees hS hS' hfrom hfrom' hn hn' (fun c => hlinked n c hn)
              (fun c => hlinked' n c hn') free hfingerprint fun c c' hlink hlink' hsame => ?_
            exact ih n c hn hlink (hlinked' n c' hn' hlink')
              (fun r r' hr hr' => free r r' (.linked hS hfrom hn hlink hr)
                (.linked hS' hfrom' hn' hlink' hr')) hsame args
          have hparams : f.arity = f'.arity := by
            have hlengths := congrArg (fun d : Definition => d.params.length) herase
            simpa [Definition.erase, Function.arity] using hlengths
          by_cases hargs : args.length = f.arity
          · have hvalues := Function.value_agrees herase
              (fun n hn => outer?_eq constants hS hS' hsource hcaptures hn) hcalls hargs
            exact ((embodies.runs fuel args hargs).agree.symm.trans hvalues).trans
              (embodies'.runs fuel args (hargs.trans hparams)).agree
          · obtain ⟨d, hd⟩ := embodies.call_of_ne hargs fuel
            obtain ⟨d', hd'⟩ := embodies'.call_of_ne (hparams ▸ hargs) fuel
            rw [hd, hd']
            trivial

end Artifact

/-! ## Artifacts that are compiled -/

namespace Linker

/-- A name is bound to the function, or to a gateway of it. -/
def Declares (env : Linker) (g : Function) : Prop :=
  ∃ home name c, env.lookup home name = some (.callable c) ∧ c.plain? = some g

end Linker

namespace Compile

/-- With a function the units have what it calls: the functions that are bound to its names, with the
same bindings, and those that the artifacts bound to them were made from. No other function that a name
is bound to has the number of a unit. -/
structure Closed (S : Units) : Prop where
  functions : ∀ {env f}, S env f → ∀ n ∈ f.definition.body.calledNames, ∀ c g,
    env.lookup f.home n = some (.callable c) → c.plain? = some g → S env g
  artifacts : ∀ {env f}, S env f → ∀ n ∈ f.definition.body.calledNames, ∀ b,
    env.lookup f.home n = some (.callable (.artifact b)) → b.MadeFrom S
  numbered : ∀ {env f g}, S env f → env.Declares g → f.id = g.id → f = g

variable {S : Units} {env : Linker} {a : Artifact} {f : Function}

/-- The function is a unit, or a name is bound to it. -/
def Known (S : Units) (env : Linker) (g : Function) : Prop := S env g ∨ env.Declares g

/-- The artifact is kept for a function, and is made from the units if the function is one of them. -/
def KeptFor (S : Units) (env : Linker) (i : Nat) (a : Artifact) : Prop :=
  ∃ g, Known S env g ∧ g.id = i ∧ (S env g → a.MadeFrom S)

theorem KeptFor.madeFrom (closed : Closed S) (h : KeptFor S env f.id a) (hf : S env f) :
    a.MadeFrom S := by
  obtain ⟨g, hg | hg, hid, hmade⟩ := h
  · exact hmade hg
  · exact hmade (closed.numbered hf hg hid.symm ▸ hf)

/-- A unit is made from the units, if those that are kept once it is compiled are. -/
theorem compileUnit_madeFrom (closed : Closed S) {n : Nat} {active : List (Nat × String)}
    {st st' : State} (h : compileUnit env (function env n active) f st = .ok (a, st'))
    (kept : Retains (KeptFor S env) st') (hf : S env f) : a.MadeFrom S := by
  obtain ⟨-, hcallees⟩ := compileUnit_extends (function_extends n active) st a st' h
  obtain ⟨link, hlink⟩ := exists_link env st' f.home
  refine .intro hf ⟨n, active, st, st', h, hlink⟩ fun name b hname hb => ?_
  obtain ⟨⟨name, d⟩, hd, rfl⟩ := List.mem_map.mp ((hcallees.names name).mpr hname)
  obtain ⟨t, ht, -⟩ := hcallees.recorded.told hd
  obtain rfl : t = .artifact b := (hlink name t ht).trans hb
  -- a callee was bound as an artifact, or kept for the function that is bound
  cases ht with
  | artifact hl => exact closed.artifacts hf name hname b hl
  | @compiled c g _ hl hg hkept =>
      obtain ⟨entry, hfind, rfl⟩ := Option.map_eq_some_iff.mp hkept
      have hid : entry.1 = g.id := by simpa using List.find?_some hfind
      have hentry := kept entry (List.mem_of_find?_eq_some hfind)
      rw [hid] at hentry
      exact hentry.madeFrom closed (closed.functions hf name hname c g hl hg)

theorem function_keptFor (closed : Closed S) (fuel : Nat) (active : List (Nat × String))
    (hf : Known S env f) :
    Ensures (Retains (KeptFor S env)) (function env fuel active f) (KeptFor S env f.id) := by
  refine function_retains (fun n active g hg hcallee => ?_) fuel active f hf
  -- a callee is bound to a name, so it is known
  have hretains : Ensures (Retains (KeptFor S env)) (compileUnit env (function env n active) g)
      fun a => a.Allotted ∧ ∀ b, Target.artifact b ∈ a.body.targets → True :=
    compileUnit_allots (fun _ _ _ => trivial)
      (fun name c h hl hc =>
        (hcallee h (.inr ⟨g.home, name, c, hl, hc⟩)).mono fun _ _ => trivial) fun _ _ hst => hst
  intro st a st' h hi
  have kept := (hretains st a st' h hi).1
  exact ⟨kept, g, hg, rfl, compileUnit_madeFrom closed h kept⟩

end Compile

namespace Linker

variable {S : Compile.Units} {env env' : Linker} {f f' : Function} {a b : Artifact}
  {nextId nextId' n n' : Nat}

theorem compile_madeFrom (closed : Compile.Closed S) (hf : S env f)
    (h : env.compile nextId f = .ok (a, n)) : a.MadeFrom S := by
  obtain ⟨st, hst, -⟩ := function_of_compile h
  obtain ⟨-, hkept⟩ := Compile.function_keptFor closed _ _ (.inl hf) _ _ st hst
    fun _ hm => absurd hm List.not_mem_nil
  exact hkept.madeFrom closed hf

/-- Artifacts with one fingerprint do the same, wherever they were compiled, if functions with one
fingerprint come to the same constants, functions that are printed alike differ in spans only
(`Definition.erase_eq_of_text` says which do), and no two records that are hashed for the artifacts
share a hash. -/
theorem agree_of_fingerprint (closed : Compile.Closed S) (told : Compile.Told S)
    (constants : Compile.SameConstants S) (hf : S env f) (hf' : S env' f')
    (h : env.compile nextId f = .ok (a, n)) (h' : env'.compile nextId' f' = .ok (b, n'))
    (free : ∀ r r', a.Hashes S r → b.Hashes S r' → r.hash = r'.hash → r = r')
    (hsame : a.fingerprint = b.fingerprint) (fuel : Nat) (args : List Value) :
    Agree (a.call fuel args) (b.call fuel args) :=
  (compile_madeFrom closed hf h).call_agrees told constants (compile_madeFrom closed hf' h') free
    hsame fuel args

end Linker

/-! ## Two namespaces with a constant each -/

/-- The function `fn f(x) { abs(x) + K }` of the namespace. -/
def shifted (i : Nat) (home : NamespaceId) : Function :=
  .build i
    { markers := [], name := ⟨"f", .dummy⟩, params := [⟨"x", .dummy⟩],
      body := .mk [] (some (.binary .add (.call ⟨"abs", []⟩ .dummy [.var "x" .dummy] .dummy)
        (.var "K" .dummy) .dummy)) .dummy }
    .interactive home []

/-- Namespaces 1 and 2 bind `K` to the numbers. -/
def constantsWorld (x y : Float) : World :=
  { nextId := 4,
    namespaces := [(1, { name := "m", globals := [("K", .constant (.num x))] }),
      (2, { name := "n", globals := [("K", .constant (.num y))] })] }

/-- The two functions, against the bindings of the two namespaces. -/
inductive Shifted (x y : Float) : Compile.Units
  | first : Shifted x y (constantsWorld x y).linker (shifted 2 1)
  | second : Shifted x y (constantsWorld x y).linker (shifted 3 2)

/-- What is hashed for an artifact of one of them. -/
def shiftedRecords : List Record :=
  let d := (shifted 2 1).definition
  [d.record, Record.function d.fingerprint [],
    Record.artifact (shifted 2 1).fingerprint [("abs", Native.abs.fingerprint)], Native.abs.record]

namespace Shifted

variable {x y : Float} {env : Linker} {f : Function} {a : Artifact} {link : String → Target}

theorem definition_eq (h : Shifted x y env f) : f.definition = (shifted 2 1).definition := by
  cases h <;> rfl

theorem fingerprint_eq (h : Shifted x y env f) : f.fingerprint = (shifted 2 1).fingerprint := by
  cases h <;> rfl

theorem captures_eq (h : Shifted x y env f) : f.captures = [] := by cases h <;> rfl

theorem calledNames_eq (h : Shifted x y env f) : f.definition.body.calledNames = ["abs"] := by
  rw [h.definition_eq]
  decide

theorem lookup_abs (h : Shifted x y env f) : env.lookup f.home "abs" = none := by cases h <;> rfl

/-- No name is bound to a function. -/
theorem not_declares (h : Shifted x y env f) {g : Function} : ¬ env.Declares g := by
  rintro ⟨home, name, c, hl, -⟩
  have hl : (constantsWorld x y).lookup home name = some (.callable c) := by cases h <;> exact hl
  simp only [World.lookup, World.namespace?, constantsWorld, List.find?] at hl
  split at hl
  · simp only [Option.map_some, Option.bind_some, Namespace.get?, Dictionary.get?] at hl
    split at hl <;> cases hl
  · split at hl
    · simp only [Option.map_some, Option.bind_some, Namespace.get?, Dictionary.get?] at hl
      split at hl <;> cases hl
    · cases hl

theorem closed (x y : Float) : Compile.Closed (Shifted x y) where
  functions h n hn c g hl := by
    rw [h.calledNames_eq, List.mem_singleton] at hn
    rw [hn, h.lookup_abs] at hl
    cases hl
  artifacts h n hn b hl := by
    rw [h.calledNames_eq, List.mem_singleton] at hn
    rw [hn, h.lookup_abs] at hl
    cases hl
  numbered h hg := absurd hg h.not_declares

theorem told (x y : Float) : Compile.Told (Shifted x y) where
  assembled h := by cases h <;> rfl
  printed h h' _ := by rw [h.definition_eq, h'.definition_eq]
  zeros h e he := by
    rw [h.captures_eq] at he
    cases he
  captures h := by
    rw [h.captures_eq]
    exact ⟨⟨by decide, fun e he => nomatch he⟩, fun e he => nomatch he⟩
  calls h := by
    rw [h.calledNames_eq]
    exact ⟨by decide, fun n hn => by
      obtain rfl := List.mem_singleton.mp hn
      decide⟩

theorem linked (h : Shifted x y env f) (hfrom : a.CompiledFrom env f link) :
    link "abs" = .native .abs := by
  obtain ⟨-, -, -, st', -, hlink⟩ := hfrom
  exact (hlink "abs" (.native .abs) (.builtin h.lookup_abs (by decide))).symm

theorem callees_eq (h : Shifted x y env f) (hfrom : a.CompiledFrom env f link) :
    a.callees = [("abs", Native.abs.fingerprint)] := by
  have embodies := hfrom.embodies
  have hkeys : Dictionary.keys a.callees = ["abs"] := by
    apply List.perm_singleton.mp
    refine (List.perm_ext_iff_of_nodup embodies.distinct (List.nodup_singleton _)).mpr fun n => ?_
    rw [embodies.names, h.calledNames_eq]
  obtain ⟨⟨n, d⟩, hone, rfl⟩ := List.map_eq_singleton_iff.mp hkeys
  have hd := embodies.told "abs" d (hone ▸ List.mem_singleton_self _)
  rw [h.linked hfrom] at hd
  rw [hone, hd]
  rfl

theorem fingerprint_artifact (h : a.MadeFrom (Shifted x y)) :
    a.fingerprint = .ofArtifact (shifted 2 1).fingerprint [("abs", Native.abs.fingerprint)] := by
  cases h with
  | intro hS hfrom _ =>
      rw [hfrom.embodies.fingerprint, hS.fingerprint_eq, hS.callees_eq hfrom]

theorem same_fingerprint {b : Artifact} (ha : a.MadeFrom (Shifted x y))
    (hb : b.MadeFrom (Shifted x y)) : a.fingerprint = b.fingerprint :=
  (fingerprint_artifact ha).trans (fingerprint_artifact hb).symm

theorem mem_records {r : Record} (h : a.Hashes (Shifted x y) r) : r ∈ shiftedRecords := by
  cases h with
  | definition hS =>
      rw [hS.definition_eq]
      exact List.mem_cons_self
  | function hS =>
      rw [hS.definition_eq, hS.captures_eq]
      exact .tail _ List.mem_cons_self
  | artifact hS hfrom =>
      rw [hS.fingerprint_eq, hS.callees_eq hfrom]
      exact .tail _ (.tail _ List.mem_cons_self)
  | native hS hfrom hn hlink =>
      rw [hS.calledNames_eq, List.mem_singleton] at hn
      rw [hn, hS.linked hfrom] at hlink
      cases hlink
      exact .tail _ (.tail _ (.tail _ List.mem_cons_self))
  | linked hS hfrom hn hlink =>
      rw [hS.calledNames_eq, List.mem_singleton] at hn
      rw [hn, hS.linked hfrom] at hlink
      cases hlink

theorem free {b : Artifact} {r r' : Record} (h : a.Hashes (Shifted x y) r)
    (h' : b.Hashes (Shifted x y) r') (hsame : r.hash = r'.hash) : r = r' := by
  -- the four records are evaluated
  have hdistinct : (shiftedRecords.map Record.hash).Nodup := by decide +kernel
  exact List.inj_on_of_nodup_map hdistinct (mem_records h) (mem_records h') hsame

/-- If the numbers are the same, so are the constants. -/
theorem sameConstants : Compile.SameConstants (Shifted x x) := by
  intro env f env' f' h h' _ n _ _ v
  have hglobals : ∀ {env f}, Shifted x x env f →
      env.lookup f.home n = if "K" = n then some (.constant (.num x)) else none := by
    intro env f h
    cases h <;> rfl
  rw [hglobals h, hglobals h']

end Shifted

namespace Linker

theorem agree_of_fingerprint_shifted :
    ∃ a b n n', (constantsWorld 1 1).linker.compile 4 (shifted 2 1) = .ok (a, n) ∧
      (constantsWorld 1 1).linker.compile 5 (shifted 3 2) = .ok (b, n') ∧
      a.fingerprint = b.fingerprint ∧ ∀ fuel args, Agree (a.call fuel args) (b.call fuel args) := by
  have hok : ((constantsWorld 1 1).linker.compile 4 (shifted 2 1)).isOk = true := by
    decide +kernel
  have hok' : ((constantsWorld 1 1).linker.compile 5 (shifted 3 2)).isOk = true := by
    decide +kernel
  rcases h : (constantsWorld 1 1).linker.compile 4 (shifted 2 1) with e | ⟨a, n⟩
  · rw [h] at hok
    cases hok
  rcases h' : (constantsWorld 1 1).linker.compile 5 (shifted 3 2) with e | ⟨b, n'⟩
  · rw [h'] at hok'
    cases hok'
  have closed := Shifted.closed 1 1
  have hsame : a.fingerprint = b.fingerprint :=
    Shifted.same_fingerprint (compile_madeFrom closed .first h) (compile_madeFrom closed .second h')
  refine ⟨a, b, n, n', rfl, rfl, hsame, ?_⟩
  exact agree_of_fingerprint closed (Shifted.told 1 1) Shifted.sameConstants .first .second h h'
    (fun _ _ => Shifted.free) hsame

/-- Namespaces with different constants: there is one fingerprint, and different values. -/
theorem not_agree_of_fingerprint :
    ∃ a b n n', (constantsWorld 1 2).linker.compile 4 (shifted 2 1) = .ok (a, n) ∧
      (constantsWorld 1 2).linker.compile 5 (shifted 3 2) = .ok (b, n') ∧
      a.fingerprint = b.fingerprint ∧
      (∀ r r', a.Hashes (Shifted 1 2) r → b.Hashes (Shifted 1 2) r' → r.hash = r'.hash → r = r') ∧
      ¬ Agree (a.call 5 [.num 1]) (b.call 5 [.num 1]) := by
  have hfirst : (((constantsWorld 1 2).linker.compile 4 (shifted 2 1)).bind fun p =>
      (p.1.call 5 [.num 1]).map (Value.equal (.num 2))) = .ok true := by decide +kernel
  have hsecond : (((constantsWorld 1 2).linker.compile 5 (shifted 3 2)).bind fun p =>
      (p.1.call 5 [.num 1]).map (Value.equal (.num 2))) = .ok false := by decide +kernel
  rcases h : (constantsWorld 1 2).linker.compile 4 (shifted 2 1) with e | ⟨a, n⟩
  · rw [h] at hfirst
    cases hfirst
  rcases h' : (constantsWorld 1 2).linker.compile 5 (shifted 3 2) with e | ⟨b, n'⟩
  · rw [h'] at hsecond
    cases hsecond
  rw [h] at hfirst
  rw [h'] at hsecond
  have closed := Shifted.closed 1 2
  have hsame : a.fingerprint = b.fingerprint :=
    Shifted.same_fingerprint (compile_madeFrom closed .first h) (compile_madeFrom closed .second h')
  refine ⟨a, b, n, n', rfl, rfl, hsame, fun _ _ => Shifted.free, fun hagree => ?_⟩
  have hfirst : (a.call 5 [.num 1]).map (Value.equal (.num 2)) = .ok true := hfirst
  have hsecond : (b.call 5 [.num 1]).map (Value.equal (.num 2)) = .ok false := hsecond
  rcases ha : a.call 5 [.num 1] with e | v
  · rw [ha] at hfirst
    cases hfirst
  rcases hb : b.call 5 [.num 1] with e | u
  · rw [hb] at hsecond
    cases hsecond
  rw [ha, hb] at hagree
  obtain rfl : v = u := hagree
  rw [ha] at hfirst
  rw [hb] at hsecond
  cases hfirst.symm.trans hsecond

end Linker

end Graft
