import Graft.Value.Basic
import Mathlib

/-!
# Addressing in bounds

Indices are numbers of 64 bits with a sign, and one that is negative counts from the end. What
reading, storing and slicing make of an index is told here from the positions it denotes. The same
is done once more step by step and in place, where a sum may not fit into 64 bits and an access may
miss the array; neither ever happens.
-/

namespace Graft

namespace Value

variable {n p : Nat} {i : Int} {xs : Array Float}

/-! ## What an index denotes -/

/-- An index, counted from the start. -/
def fromStart (n : Nat) (i : Int) : Int := if i < 0 then i + n else i

/-- The indices of the elements, in either way of counting. -/
def Denotes (n : Nat) (i : Int) : Prop := -(n : Int) ≤ i ∧ i < n

instance (n : Nat) (i : Int) : Decidable (Denotes n i) :=
  inferInstanceAs (Decidable (-(n : Int) ≤ i ∧ i < n))

theorem denotes_iff : Denotes n i ↔ 0 ≤ fromStart n i ∧ fromStart n i < n := by
  unfold Denotes fromStart
  split <;> omega

theorem position_eq_ok (h : fromStart n i = p) (hp : p < n) : position i n = .ok p := by
  have hin : ¬ (fromStart n i < 0 ∨ (n : Int) ≤ fromStart n i) := by omega
  rw [position, ← fromStart, if_neg hin, h, Int.toNat_natCast]

theorem position_eq_error (h : ¬ Denotes n i) : position i n = .error (outOfBounds i n) := by
  have hout : fromStart n i < 0 ∨ (n : Int) ≤ fromStart n i := by
    rw [denotes_iff] at h
    omega
  rw [position, ← fromStart, if_pos hout]

theorem lt_of_position (h : position i n = .ok p) : p < n := by
  rw [position, ← fromStart] at h
  by_cases hout : fromStart n i < 0 ∨ (n : Int) ≤ fromStart n i
  · rw [if_pos hout] at h
    cases h
  · rw [if_neg hout, Except.ok.injEq] at h
    omega

/-- The position of an element that an index denotes. -/
theorem Denotes.exists_position (h : Denotes n i) : ∃ p < n, fromStart n i = p := by
  obtain ⟨hpos, hlt⟩ := denotes_iff.mp h
  obtain ⟨p, hp⟩ := Int.eq_ofNat_of_zero_le hpos
  exact ⟨p, by omega, hp⟩

theorem index_eq_ok (h : fromStart xs.size i = p) (hp : p < xs.size) :
    (array xs).index i = .ok (num xs[p]) := by
  show (position i xs.size >>= fun p => .ok (num (xs.getD p 0))) = _
  rw [position_eq_ok h hp]
  show Except.ok (num (xs.getD p 0)) = _
  rw [← Array.getElem_eq_getD]

theorem index_eq_error (h : ¬ Denotes xs.size i) :
    (array xs).index i = .error (outOfBounds i xs.size) := by
  show (position i xs.size >>= fun p => .ok (num (xs.getD p 0))) = _
  rw [position_eq_error h]
  rfl

theorem store_eq_ok (h : fromStart xs.size i = p) (hp : p < xs.size) (x : Float) :
    (array xs).store i (num x) = .ok (array (xs.set p x)) := by
  show (position i xs.size >>= fun p => .ok (array (xs.setIfInBounds p x))) = _
  rw [position_eq_ok h hp]
  show Except.ok (array (xs.setIfInBounds p x)) = _
  rw [Array.setIfInBounds, dif_pos hp]

theorem store_eq_error (h : ¬ Denotes xs.size i) (x : Float) :
    (array xs).store i (num x) = .error (outOfBounds i xs.size) := by
  show (position i xs.size >>= fun p => .ok (array (xs.setIfInBounds p x))) = _
  rw [position_eq_error h]
  rfl

/-! ## Slices -/

/-- An end of a slice: an index counted from the start and moved into the array. -/
def bound (n : Nat) (i : Int) : Int := max 0 (min (fromStart n i) n)

/-- The elements at the positions from one to before another, in order. -/
def between (xs : Array Float) (lo hi : Int) : List Float :=
  ((List.finRange xs.size).filter fun p => lo ≤ p.val ∧ p.val < hi).map fun p => xs[p]

theorem natCast_clamp : (clamp i n : Int) = bound n i := by
  rw [clamp, ← fromStart, bound]
  omega

theorem clamp_le : clamp i n ≤ n := Nat.min_le_right ..

theorem filter_range {lo hi : Nat} (h : hi ≤ n) :
    ((List.range n).filter fun p : Nat => (lo : Int) ≤ p ∧ (p : Int) < hi) =
      List.range' lo (hi - lo) := by
  have hunique : ∀ a b : Nat, a < b → b < a → a = b := fun a b hab hba => by omega
  refine List.Perm.eq_of_pairwise (fun a b _ _ => hunique a b) (List.pairwise_lt_range.filter _)
    List.pairwise_lt_range' ?_
  refine (List.perm_ext_iff_of_nodup (List.nodup_range.filter _) List.nodup_range').mpr fun p => ?_
  simp only [List.mem_filter, List.mem_range, List.mem_range'_1, decide_eq_true_eq]
  omega

/-- An extract holds the elements between its ends. -/
theorem toList_extract_eq {lo hi : Nat} (h : hi ≤ xs.size) :
    (xs.extract lo hi).toList = between xs lo hi := by
  have hrange : (xs.extract lo hi).toList =
      (List.range' lo (hi - lo)).map fun p => xs.getD p 0 := by
    refine List.ext_getElem ?_ fun k hk _ => ?_
    · rw [Array.length_toList, Array.size_extract, List.length_map, List.length_range',
        Nat.min_eq_left h]
    · rw [Array.length_toList, Array.size_extract] at hk
      rw [Array.getElem_toList, Array.getElem_extract, List.getElem_map, List.getElem_range',
        Nat.one_mul, ← Array.getElem_eq_getD]
  calc (xs.extract lo hi).toList
      = ((List.range xs.size).filter fun p : Nat => (lo : Int) ≤ p ∧ (p : Int) < hi).map
          fun p => xs.getD p 0 := by rw [hrange, filter_range h]
    _ = (((List.finRange xs.size).filter fun p => (lo : Int) ≤ p.val ∧ (p.val : Int) < hi).map
          Fin.val).map fun p => xs.getD p 0 := by
        rw [← List.map_coe_finRange_eq_range, List.filter_map]
        rfl
    _ = between xs lo hi := by
        rw [List.map_map]
        exact List.map_congr_left fun p _ => (Array.getElem_eq_getD 0).symm

theorem slice_eq (xs : Array Float) (first last : Int) :
    (array xs).slice first last =
      .ok (array (between xs (bound xs.size first) (bound xs.size last)).toArray) := by
  show Except.ok (array (xs.extract (clamp first xs.size) (clamp last xs.size))) = _
  rw [← natCast_clamp, ← natCast_clamp, ← toList_extract_eq clamp_le, Array.toArray_toList]

end Value

namespace Addressing

/-! ## Step by step -/

/-- What must not happen. -/
inductive Slip where
  /-- A number does not fit into 64 bits. -/
  | overflow
  /-- A position that the array does not have was looked at. -/
  | outOfRange

/-- Steps on an array that is changed where it is; a diagnostic keeps what was changed before it. -/
abbrev InPlace := ExceptT Diagnostic (StateT (Array Float) (Except Slip))

namespace InPlace

variable {α β : Type} {m : InPlace α} {f : α → InPlace β} {r : Outcome α} {s : Outcome β}
  {xs ys zs : Array Float}

def slip (s : Slip) : InPlace α := ExceptT.mk fun _ => .error s

/-- The sum of two numbers. -/
def sum (a b : Int64) : InPlace Int64 :=
  if (a + b).toInt = a.toInt + b.toInt then return a + b else slip .overflow

/-- How many elements there are. -/
def size : InPlace Int64 := do
  let n := (← get).size
  if (Int64.ofNat n).toInt = n then return .ofNat n else slip .overflow

def fetch (p : Nat) : InPlace Float := do
  match (← get)[p]? with
  | some x => return x
  | none => slip .outOfRange

def put (p : Nat) (x : Float) : InPlace Unit := do
  if p < (← get).size then modify (·.setIfInBounds p x) else slip .outOfRange

def cut (lo hi : Nat) : InPlace (Array Float) := do
  let xs ← get
  if lo ≤ hi ∧ hi ≤ xs.size then return xs.extract lo hi else slip .outOfRange

/-- A negative index counts from the end. -/
def fromStart (i : Int64) : InPlace Int64 := do
  if i < 0 then sum i (← size) else return i

/-- The position that an index denotes. -/
def resolve (i : Int64) : InPlace Nat := do
  let p ← fromStart i
  let n ← size
  if p < 0 ∨ n ≤ p then throw (Value.outOfBounds i.toInt n.toInt.toNat)
  return p.toUInt64.toNat

/-- The end of a slice that an index denotes. -/
def bound (i : Int64) : InPlace Nat := do
  let n ← size
  let p ← fromStart i
  return (if p < 0 then 0 else if n < p then n else p).toUInt64.toNat

def index (i : Int64) : InPlace Value := do
  let p ← resolve i
  return .num (← fetch p)

def store (i : Int64) (v : Value) : InPlace Unit := do
  let x ← v.asNum
  let p ← resolve i
  put p x

def slice (first last : Int64) : InPlace Value := do
  let lo ← bound first
  let hi ← bound last
  if hi ≤ lo then return .array #[]
  return .array (← cut lo hi)

/-! ## What steps give -/

/-- The steps end without a slip, and leave an array. -/
def Gives (m : InPlace α) (xs : Array Float) (r : Outcome α) (ys : Array Float) : Prop :=
  m.run.run xs = .ok (r, ys)

theorem gives_pure (a : α) : Gives (pure a) xs (.ok a) xs := rfl

theorem gives_throw (e : Diagnostic) : Gives (throw e : InPlace α) xs (.error e) xs := rfl

theorem gives_get : Gives get xs (.ok xs) xs := rfl

theorem gives_lift (r : Outcome α) : Gives (liftM r) xs r xs := by
  cases r <;> rfl

theorem Gives.bind {a : α} (hm : Gives m xs (.ok a) ys) (hf : Gives (f a) ys s zs) :
    Gives (m >>= f) xs s zs := by
  have hrun : (m >>= f).run.run xs =
      m.run.run xs >>= fun q => (match q.1 with
        | .ok a => (f a).run.run q.2
        | .error e => .ok (.error e, q.2)) := by
    show (m.run.run xs >>= fun q => _) = _
    congr 1
    funext ⟨q, _⟩
    cases q <;> rfl
  rw [Gives, hrun, hm]
  exact hf

theorem Gives.bind_error {e : Diagnostic} (hm : Gives m xs (.error e) ys) :
    Gives (m >>= f) xs (.error e) ys := by
  show (m.run.run xs >>= fun q => _) = _
  rw [hm]
  rfl

/-- Steps that leave the array as it is, one after the other. -/
theorem Gives.bind_same {g : α → Outcome β} (hm : Gives m xs r xs)
    (hf : ∀ a, r = .ok a → Gives (f a) xs (g a) xs) : Gives (m >>= f) xs (r >>= g) xs := by
  cases r with
  | error e => exact hm.bind_error
  | ok a => exact hm.bind (hf a rfl)

/-! ## The steps of addressing -/

theorem toNat_toUInt64 {p : Int64} (h : 0 ≤ p.toInt) : p.toUInt64.toNat = p.toInt.toNat := by
  rw [Int64.toNat_toUInt64_of_le (Int64.le_iff_toInt_le.mpr h), Int64.toNat_toInt]

/-- A sum of a negative number and one that is not fits. -/
theorem gives_sum {a b : Int64} (ha : a.toInt < 0) (hb : 0 ≤ b.toInt) :
    (a + b).toInt = a.toInt + b.toInt ∧ Gives (sum a b) xs (.ok (a + b)) xs := by
  have hsum : (a + b).toInt = a.toInt + b.toInt := by
    have := a.le_toInt
    have := b.toInt_lt
    rw [Int64.toInt_add]
    exact Int.bmod_eq_of_le (by omega) (by omega)
  refine ⟨hsum, ?_⟩
  rw [sum, if_pos hsum]
  exact gives_pure _

variable (hsize : xs.size < 2 ^ 63) (i : Int64)
include hsize

theorem gives_size : ∃ n : Int64, n.toInt = xs.size ∧ Gives size xs (.ok n) xs := by
  have hn : (Int64.ofNat xs.size).toInt = xs.size := Int64.toInt_ofNat_of_lt hsize
  refine ⟨_, hn, gives_get.bind ?_⟩
  rw [if_pos hn]
  exact gives_pure _

theorem gives_fromStart :
    ∃ p : Int64, p.toInt = Value.fromStart xs.size i.toInt ∧
      Gives (fromStart i) xs (.ok p) xs := by
  obtain ⟨n, hn, hgives⟩ := gives_size hsize
  rw [fromStart]
  by_cases hneg : i < 0
  · have hlt : i.toInt < 0 := Int64.lt_iff_toInt_lt.mp hneg
    obtain ⟨hsum, hplus⟩ := @gives_sum xs _ _ hlt (hn ▸ Int.natCast_nonneg _)
    rw [if_pos hneg]
    refine ⟨_, ?_, hgives.bind hplus⟩
    rw [hsum, hn, Value.fromStart, if_pos hlt]
  · have hle : ¬ i.toInt < 0 := fun h => hneg (Int64.lt_iff_toInt_lt.mpr h)
    rw [if_neg hneg]
    refine ⟨i, ?_, gives_pure _⟩
    rw [Value.fromStart, if_neg hle]

theorem gives_resolve : Gives (resolve i) xs (Value.position i.toInt xs.size) xs := by
  obtain ⟨p, hp, hfrom⟩ := gives_fromStart hsize i
  obtain ⟨n, hn, hgives⟩ := gives_size hsize
  refine hfrom.bind (hgives.bind ?_)
  have hiff : (p < 0 ∨ n ≤ p) ↔ (p.toInt < 0 ∨ (xs.size : Int) ≤ p.toInt) := by
    rw [Int64.lt_iff_toInt_lt, Int64.le_iff_toInt_le, hn]
    rfl
  rw [Value.position, ← Value.fromStart, ← hp]
  by_cases hout : p < 0 ∨ n ≤ p
  · rw [if_pos hout, if_pos (hiff.mp hout), hn]
    exact gives_throw _
  · have hin : ¬ (p.toInt < 0 ∨ (xs.size : Int) ≤ p.toInt) := fun h => hout (hiff.mpr h)
    rw [if_neg hout, if_neg hin, ← toNat_toUInt64 (by omega)]
    exact gives_pure _

theorem gives_bound : Gives (bound i) xs (.ok (Value.clamp i.toInt xs.size)) xs := by
  obtain ⟨p, hp, hfrom⟩ := gives_fromStart hsize i
  obtain ⟨n, hn, hgives⟩ := gives_size hsize
  refine hgives.bind (hfrom.bind ?_)
  have hclamp : (if p < 0 then 0 else if n < p then n else p).toUInt64.toNat =
      Value.clamp i.toInt xs.size := by
    rw [Value.clamp, ← Value.fromStart, ← hp]
    split
    case isTrue h =>
      have : p.toInt < 0 := Int64.lt_iff_toInt_lt.mp h
      rw [Int.toNat_of_nonpos (by omega)]
      exact (Nat.zero_min _).symm
    case isFalse h =>
      have hpos : 0 ≤ p.toInt := Int.not_lt.mp fun hlt => h (Int64.lt_iff_toInt_lt.mpr hlt)
      split
      case isTrue h' =>
        have : n.toInt < p.toInt := Int64.lt_iff_toInt_lt.mp h'
        rw [toNat_toUInt64 (by omega)]
        omega
      case isFalse h' =>
        have : p.toInt ≤ n.toInt := Int.not_lt.mp fun hlt => h' (Int64.lt_iff_toInt_lt.mpr hlt)
        rw [toNat_toUInt64 hpos]
        omega
  rw [hclamp]
  exact gives_pure _

/-- Reading in place is reading. -/
theorem gives_index : Gives (index i) xs ((Value.array xs).index i.toInt) xs := by
  refine (gives_resolve hsize i).bind_same fun p hp => ?_
  have hlt := Value.lt_of_position hp
  have hfetch : Gives (fetch p) xs (.ok (xs.getD p 0)) xs := by
    refine gives_get.bind ?_
    rw [Array.getElem?_eq_getElem hlt, ← Array.getElem_eq_getD (h := hlt)]
    exact gives_pure _
  exact hfetch.bind (gives_pure _)

/-- Slicing in place is slicing. -/
theorem gives_slice (first last : Int64) :
    Gives (slice first last) xs ((Value.array xs).slice first.toInt last.toInt) xs := by
  refine (gives_bound hsize first).bind ((gives_bound hsize last).bind ?_)
  set lo := Value.clamp first.toInt xs.size
  set hi := Value.clamp last.toInt xs.size with hhi
  have hle : hi ≤ xs.size := Value.clamp_le
  change Gives _ xs (.ok (Value.array (xs.extract lo hi))) xs
  by_cases hempty : hi ≤ lo
  · rw [if_pos hempty, Array.extract_empty_of_stop_le_start hempty]
    exact gives_pure _
  · have hcut : Gives (cut lo hi) xs (.ok (xs.extract lo hi)) xs := by
      refine gives_get.bind ?_
      rw [if_pos ⟨by omega, hle⟩]
      exact gives_pure _
    rw [if_neg hempty]
    exact hcut.bind (gives_pure _)

/-- Storing in place leaves the array that storing gives, and fails where storing fails with the
array as it was. -/
theorem gives_store (v : Value) :
    (∃ ys, (Value.array xs).store i.toInt v = .ok (.array ys) ∧ Gives (store i v) xs (.ok ()) ys) ∨
      ∃ e, (Value.array xs).store i.toInt v = .error e ∧ Gives (store i v) xs (.error e) xs := by
  have hstored : (Value.array xs).store i.toInt v = v.asNum >>= fun x =>
      Value.position i.toInt xs.size >>= fun p => .ok (.array (xs.setIfInBounds p x)) := rfl
  have hresolve := gives_resolve hsize i
  cases hnum : v.asNum with
  | error e =>
    refine .inr ⟨e, by rw [hstored, hnum]; rfl, ?_⟩
    rw [store, hnum]
    exact (gives_lift (.error e)).bind_error
  | ok x =>
    have hbind : ∀ {r ys}, Gives (resolve i >>= fun p => put p x) xs r ys →
        Gives (store i v) xs r ys := fun h => by
      rw [store, hnum]
      exact (gives_lift (.ok x)).bind h
    cases hpos : Value.position i.toInt xs.size with
    | error e =>
      rw [hpos] at hresolve
      exact .inr ⟨e, by rw [hstored, hnum, hpos]; rfl, hbind hresolve.bind_error⟩
    | ok p =>
      rw [hpos] at hresolve
      have hput : Gives (put p x) xs (.ok ()) (xs.setIfInBounds p x) := by
        refine gives_get.bind ?_
        rw [if_pos (Value.lt_of_position hpos)]
        rfl
      exact .inl ⟨_, by rw [hstored, hnum, hpos]; rfl, hbind (hresolve.bind hput)⟩

end InPlace

end Addressing

namespace Value

/-- A number that is used as an index has 64 bits. -/
theorem exists_int64_of_asIndex {v : Value} {i : Int} (h : v.asIndex = .ok i) :
    ∃ j : Int64, j.toInt = i := by
  have hi : -2 ^ 63 ≤ i ∧ i < 2 ^ 63 := by
    cases v with
    | num x =>
      change (if isWhole x then Except.ok (wholePart x) else .error (notWhole x)) = .ok i at h
      split at h
      case isTrue =>
        obtain rfl : wholePart x = i := Except.ok.inj h
        rw [wholePart]
        split <;> omega
      case isFalse => cases h
    | bool | array | tuple | unit => cases h
  exact ⟨.ofInt i, Int64.toInt_ofInt_of_le hi.1 hi.2⟩

open Addressing in
/-- Arrays are addressed in one way. An index denotes an element exactly when it lies between minus
the length and the length; reading and storing succeed for those indices and concern that element
only, and a slice holds what lies between its bounds. Indices have 64 bits, and done in place, in 64
bits and with every access checked, the same comes out: nothing slips, and a store that fails leaves
the array as it was. -/
theorem addressing (xs : Array Float) :
    (∀ i, Denotes xs.size i →
      ∃ p, ∃ hp : p < xs.size, (p : Int) = (if i < 0 then i + xs.size else i) ∧
        (array xs).index i = .ok (num xs[p]) ∧
        ∀ x, (array xs).store i (num x) = .ok (array (xs.set p x))) ∧
      (∀ i, ¬ Denotes xs.size i →
        (array xs).index i = .error (outOfBounds i xs.size) ∧
          ∀ x, (array xs).store i (num x) = .error (outOfBounds i xs.size)) ∧
      (∀ a b, (array xs).slice a b =
        .ok (array (between xs (bound xs.size a) (bound xs.size b)).toArray)) ∧
      (∀ (v : Value) i, v.asIndex = .ok i → ∃ j : Int64, j.toInt = i) ∧
      (xs.size < 2 ^ 63 → ∀ i j : Int64,
        InPlace.Gives (InPlace.index i) xs ((array xs).index i.toInt) xs ∧
          InPlace.Gives (InPlace.slice i j) xs ((array xs).slice i.toInt j.toInt) xs ∧
          ∀ v, (∃ ys, (array xs).store i.toInt v = .ok (array ys) ∧
              InPlace.Gives (InPlace.store i v) xs (.ok ()) ys) ∨
            ∃ e, (array xs).store i.toInt v = .error e ∧
              InPlace.Gives (InPlace.store i v) xs (.error e) xs) := by
  refine ⟨fun i h => ?_, fun i h => ⟨index_eq_error h, store_eq_error h⟩, slice_eq xs,
    fun _ _ => exists_int64_of_asIndex, fun hsize i j => ⟨InPlace.gives_index hsize i,
      InPlace.gives_slice hsize i j, InPlace.gives_store hsize i⟩⟩
  obtain ⟨p, hp, hfrom⟩ := h.exists_position
  exact ⟨p, hp, hfrom.symm, index_eq_ok hfrom hp, store_eq_ok hfrom hp⟩

open Addressing in
theorem addressing_last :
    Denotes 3 (-1) ∧ ¬ Denotes 3 3 ∧
      (array #[3, 1, 2]).index (-1) = .ok (num 2) ∧
      (∀ x, (array #[3, 1, 2]).store (-1) (num x) = .ok (array #[3, 1, x])) ∧
      (array #[3, 1, 2]).slice (-2) 9223372036854775807 = .ok (array #[1, 2]) ∧
      InPlace.Gives (InPlace.index Int64.minValue) #[3, 1, 2]
        (.error (outOfBounds (-9223372036854775808) 3)) #[3, 1, 2] := by
  obtain ⟨hin, hout, hslice, -, hplace⟩ := addressing #[3, 1, 2]
  obtain ⟨p, hp, hpos, hindex, hstore⟩ := hin (-1) (by decide)
  obtain rfl : p = 2 := by
    change (p : Int) = 2 at hpos
    omega
  refine ⟨by decide, by decide, hindex, hstore, hslice _ _, ?_⟩
  have hmin := (hplace (by decide) .minValue .minValue).1
  rwa [show Int64.minValue.toInt = -9223372036854775808 from rfl,
    (hout (-9223372036854775808) (by decide)).1] at hmin

end Value

end Graft
