import Graft.Proofs.Spelling

/-!
# What the bytes of a piece tell

A token is told by its own bytes: cut out of the text they are that token again, and what looks like
a number always is one. A comment starts with two slashes, which no token holds.
-/

namespace Graft.Scan

/-! ## Numbers -/

theorem takeWhile_take {p : UInt8 → Bool} {u : List UInt8} {k : Nat}
    (h : (u.takeWhile p).length ≤ k) : (u.take k).takeWhile p = u.takeWhile p := by
  induction u generalizing k with
  | nil => simp
  | cons b u ih =>
      by_cases hb : p b = true
      · simp only [List.takeWhile_cons, hb, if_true, List.length_cons] at h
        obtain ⟨k, rfl⟩ : ∃ n, k = n + 1 := ⟨k - 1, by omega⟩
        simp [hb, ih (Nat.le_of_succ_le_succ h)]
      · cases k <;> simp [hb]

/-- A point and digits after it. -/
def IsFraction (u : List UInt8) : Prop :=
  ∃ d more, u = 46 :: d :: more ∧ ∀ x ∈ d :: more, isDigit x = true

/-- `e` and digits, with a sign between them or without one. -/
def IsExponent (u : List UInt8) : Prop :=
  ∃ e sign d more, u = e :: (sign ++ d :: more) ∧ (e = 101 ∨ e = 69) ∧
    (sign = [] ∨ sign = [43] ∨ sign = [45]) ∧ ∀ x ∈ d :: more, isDigit x = true

theorem digits_takeWhile {d : UInt8} (hd : isDigit d = true) (u : List UInt8) :
    ∀ x ∈ d :: u.takeWhile isDigit, isDigit x = true := by
  intro x hx
  rcases List.mem_cons.mp hx with rfl | hx
  · exact hd
  · exact List.mem_takeWhile_imp hx

theorem take_takeWhile (p : UInt8 → Bool) (u : List UInt8) :
    u.take (u.takeWhile p).length = u.takeWhile p :=
  (List.prefix_iff_eq_take.mp (List.takeWhile_prefix p)).symm

theorem fraction_cases (v : List UInt8) :
    v.take (fractionLength v) = [] ∨ IsFraction (v.take (fractionLength v)) := by
  fun_cases fractionLength v with
  | case1 d rest hd =>
      right
      refine ⟨d, rest.takeWhile isDigit, ?_, digits_takeWhile hd rest⟩
      rw [Nat.add_comm, List.take_succ_cons, List.take_succ_cons, take_takeWhile]
  | _ => exact .inl rfl

theorem exponent_cases (v : List UInt8) :
    v.take (exponentLength v) = [] ∨ IsExponent (v.take (exponentLength v)) := by
  fun_cases exponentLength v with
  | case1 e s rest he hs =>
      right
      refine ⟨e, [], s, rest.takeWhile isDigit, ?_, by simpa using he, .inl rfl,
        digits_takeWhile hs rest⟩
      rw [Nat.add_comm, List.take_succ_cons, List.take_succ_cons, take_takeWhile]
      rfl
  | case2 e s he hs hsign d more hd =>
      right
      refine ⟨e, [s], d, more.takeWhile isDigit, ?_, by simpa using he, by simpa using hsign,
        digits_takeWhile hd more⟩
      rw [Nat.add_comm, List.take_succ_cons, List.take_succ_cons, List.take_succ_cons,
        take_takeWhile]
      rfl
  | _ => exact .inl rfl

/-- What belongs to a number after its first digit: digits, a fraction or none, and an exponent or
none. -/
theorem number_cases (u : List UInt8) : ∃ whole fraction exponent,
    u.take (numberLength u) = whole ++ (fraction ++ exponent) ∧ (∀ x ∈ whole, isDigit x = true) ∧
      (fraction = [] ∨ IsFraction fraction) ∧ (exponent = [] ∨ IsExponent exponent) := by
  obtain ⟨n, hn⟩ : ∃ n, n = (u.takeWhile isDigit).length := ⟨_, rfl⟩
  refine ⟨u.takeWhile isDigit, (u.drop n).take (fractionLength (u.drop n)),
    (u.drop (n + fractionLength (u.drop n))).take
      (exponentLength (u.drop (n + fractionLength (u.drop n)))),
    ?_, fun x hx => List.mem_takeWhile_imp hx, fraction_cases _, exponent_cases _⟩
  unfold numberLength
  subst hn
  dsimp only
  rw [List.take_add, List.take_add, take_takeWhile, List.append_assoc]

theorem fractionLength_take {v : List UInt8} {k : Nat} (h : fractionLength v ≤ k) :
    fractionLength (v.take k) = fractionLength v := by
  revert h
  fun_cases fractionLength v with
  | case1 d rest hd =>
      intro h
      obtain ⟨k, rfl⟩ : ∃ n, k = n + 2 := ⟨k - 2, by omega⟩
      have hrest : (rest.take k).takeWhile isDigit = rest.takeWhile isDigit :=
        takeWhile_take (by omega)
      simp [fractionLength, hd, hrest]
  | case2 d rest hd =>
      intro _
      obtain _ | _ | k := k
      all_goals simp [fractionLength, hd]
  | case3 v hv =>
      intro _
      unfold fractionLength
      split
      · next d rest htake =>
          have hmore := List.take_append_drop k v
          rw [htake] at hmore
          exact (hv d (rest ++ v.drop k) hmore.symm).elim
      · rfl

theorem exponentLength_take {v : List UInt8} {k : Nat} (h : exponentLength v ≤ k) :
    exponentLength (v.take k) = exponentLength v := by
  revert h
  fun_cases exponentLength v with
  | case1 e s rest he hs =>
      intro h
      obtain ⟨k, rfl⟩ : ∃ n, k = n + 2 := ⟨k - 2, by omega⟩
      have hrest : (rest.take k).takeWhile isDigit = rest.takeWhile isDigit :=
        takeWhile_take (by omega)
      simp [exponentLength, he, hs, hrest]
  | case2 e s he hs hsign d more hd =>
      intro h
      obtain ⟨k, rfl⟩ : ∃ n, k = n + 3 := ⟨k - 3, by omega⟩
      have hmore : (more.take k).takeWhile isDigit = more.takeWhile isDigit :=
        takeWhile_take (by omega)
      simp [exponentLength, he, hs, hsign, hd, hmore]
  | case3 e s he hs hsign d more hd =>
      intro _
      obtain _ | _ | _ | k := k
      all_goals simp [exponentLength, hs, hd]
  | case4 e s he hs hsign =>
      intro _
      obtain _ | _ | k := k
      all_goals simp [exponentLength, hs]
  | case5 e s rest he hs hsign =>
      intro _
      obtain _ | _ | k := k
      all_goals simp [exponentLength, hs, hsign]
  | case6 e s rest he =>
      intro _
      obtain _ | _ | k := k
      all_goals simp [exponentLength, he]
  | case7 v hv =>
      intro _
      obtain _ | ⟨e, _ | ⟨s, rest⟩⟩ := v
      · simp [exponentLength]
      · cases k <;> simp [exponentLength]
      · exact (hv e s rest rfl).elim

/-- A number cut out of a text reaches as far as it did there. -/
theorem numberLength_take (u : List UInt8) :
    numberLength (u.take (numberLength u)) = numberLength u := by
  unfold numberLength
  dsimp only
  rw [takeWhile_take (by omega), List.drop_take, fractionLength_take (by omega), List.drop_take,
    exponentLength_take (by omega)]

/-! ## Numbers are read -/

theorem isDigit_ofUInt8 (b : UInt8) : (Char.ofUInt8 b).isDigit = isDigit b := by
  simp [Char.isDigit, isDigit, val_ofUInt8, UInt32.le_iff_toNat_le, UInt8.le_iff_toNat_le]

theorem spanDigits_append {front rest : List UInt8} (hfront : ∀ x ∈ front, isDigit x = true)
    (hrest : ∀ b ∈ rest.head?, isDigit b = false) :
    Decimal.spanDigits ((front ++ rest).map Char.ofUInt8) =
      (front.map Char.ofUInt8, rest.map Char.ofUInt8) := by
  have hdigit : (Char.isDigit ∘ Char.ofUInt8) = isDigit := funext isDigit_ofUInt8
  have hspan := List.takeWhile_append_dropWhile (p := isDigit) (l := front ++ rest)
  rw [takeWhile_append_stop hfront hrest, List.append_cancel_left_eq] at hspan
  rw [Decimal.spanDigits, List.takeWhile_map, List.dropWhile_map, hdigit,
    takeWhile_append_stop hfront hrest, hspan]

theorem exponent?_isSome {u : List UInt8} (h : u = [] ∨ IsExponent u) :
    (Decimal.exponent? (u.map Char.ofUInt8)).isSome = true := by
  rcases h with rfl | ⟨e, sign, d, more, rfl, he, hsign, hdigits⟩
  · rfl
  · have hall : ((d :: more).map Char.ofUInt8).all Char.isDigit = true := by
      simpa [isDigit_ofUInt8] using hdigits
    have he' : Char.ofUInt8 e = 'e' ∨ Char.ofUInt8 e = 'E' := by
      rcases he with rfl | rfl <;> decide
    have hspan : ∃ minus, Decimal.spanSign ((sign ++ d :: more).map Char.ofUInt8) =
        (minus, (d :: more).map Char.ofUInt8) := by
      rcases hsign with rfl | rfl | rfl
      · exact ⟨false, spanSign_of_digit (hdigits d List.mem_cons_self) _⟩
      · exact ⟨false, rfl⟩
      · exact ⟨true, rfl⟩
    obtain ⟨minus, hspan⟩ := hspan
    rw [List.map_cons, Decimal.exponent?, if_pos he', hspan]
    dsimp only
    rw [hall]
    cases minus <;> rfl

/-- The digits of a fraction are taken off, and what follows is the exponent. -/
theorem spanFraction_append {u v : List UInt8} (hu : u = [] ∨ IsFraction u)
    (hv : v = [] ∨ IsExponent v) : ∃ digits,
    Decimal.spanFraction ((u ++ v).map Char.ofUInt8) = (digits, v.map Char.ofUInt8) := by
  have hhead : ∀ b ∈ v.head?, isDigit b = false ∧ Char.ofUInt8 b ≠ '.' := by
    rcases hv with rfl | ⟨e, sign, d, more, rfl, rfl | rfl, -⟩ <;> simp <;> decide
  rcases hu with rfl | ⟨d, more, rfl, hdigits⟩
  · refine ⟨[], ?_⟩
    unfold Decimal.spanFraction
    split
    · next cs hpoint =>
        cases v with
        | nil => cases hpoint
        | cons b v => exact ((hhead b rfl).2 (List.cons.inj hpoint).1).elim
    · rfl
  · refine ⟨(d :: more).map Char.ofUInt8, ?_⟩
    exact spanDigits_append hdigits fun b hb => (hhead b hb).1

theorem toLower_of_digit {b : UInt8} (h : isDigit b = true) :
    (Char.ofUInt8 b).toLower = Char.ofUInt8 b := by
  rw [← isDigit_ofUInt8, Char.isDigit, Bool.and_eq_true, decide_eq_true_eq, decide_eq_true_eq,
    ge_iff_le, UInt32.le_iff_toNat_le, UInt32.le_iff_toNat_le] at h
  unfold Char.toLower
  split
  · next hupper =>
      rw [ge_iff_le, UInt32.le_iff_toNat_le] at hupper
      simp at h hupper
      omega
  · rfl

/-- Digits that look like a number are one. -/
theorem read?_number {b : UInt8} (hb : isDigit b = true) (u : List UInt8) :
    (Decimal.read? ((b :: u.take (numberLength u)).map Char.ofUInt8)).isSome = true := by
  obtain ⟨whole, fraction, exponent, hcut, hwhole, hfraction, hexponent⟩ := number_cases u
  obtain ⟨digits, hspan⟩ := spanFraction_append hfraction hexponent
  have hdigits : ∀ x ∈ b :: whole, isDigit x = true := List.forall_mem_cons.mpr ⟨hb, hwhole⟩
  have hend : ∀ x ∈ (fraction ++ exponent).head?, isDigit x = false := by
    rcases hfraction with rfl | ⟨d, more, rfl, -⟩
    · rcases hexponent with rfl | ⟨e, sign, d, more, rfl, rfl | rfl, -⟩ <;> simp <;> decide
    · simp
      decide
  have hsplit := spanDigits_append hdigits hend
  -- none of the words that stand for a number starts with a digit
  have hword : ∀ {w : String} {c : Char}, w.toList.head? = some c → c.isDigit = false →
      ((b :: whole ++ (fraction ++ exponent)).map Char.ofUInt8).map Char.toLower ≠ w.toList := by
    intro w c hc hnot heq
    rw [← heq] at hc
    simp only [List.cons_append, List.map_cons, List.head?_cons, Option.some.injEq,
      toLower_of_digit hb] at hc
    rw [← hc, isDigit_ofUInt8, hb] at hnot
    cases hnot
  have hmagnitude : (Decimal.magnitude?
      ((b :: whole ++ (fraction ++ exponent)).map Char.ofUInt8)).isSome = true := by
    unfold Decimal.magnitude?
    dsimp only
    rw [if_neg (not_or.mpr ⟨hword rfl rfl, hword rfl rfl⟩), if_neg (hword rfl rfl), hsplit]
    dsimp only
    rw [hspan]
    simp only [List.map_cons, List.isEmpty_cons, Bool.false_and, Bool.false_eq_true, if_false,
      Option.isSome_map]
    exact exponent?_isSome hexponent
  rw [hcut, List.map_cons, Decimal.read?, spanSign_of_digit hb, ← List.map_cons]
  rw [Option.isSome_map]
  exact hmagnitude

/-! ## What a piece can be -/

/-- What the bytes of a token tell: they are plain text without a second slash, they are that token
also where nothing follows them, and those of a number can be read. -/
structure TokenBytes (b : UInt8) (rest : List UInt8) (t : Token) (more : Nat) : Prop where
  first : b < 128
  others : ∀ x ∈ rest.take more, x < 128 ∧ x ≠ 47
  alone : piece b (rest.take more) = (.token t, more)
  number : ∀ x, t = .number x → Decimal.read? ((b :: rest.take more).map Char.ofUInt8) = some x

/-- The shapes of a piece that starts with `b` and has `more` bytes after it. -/
inductive Shape (b : UInt8) (rest : List UInt8) : Piece → Nat → Prop
  | blank (h : isBlank b = true) : Shape b rest .blank 0
  | comment (hb : b = 47) (hrest : rest.head? = some 47) :
      Shape b rest .blank (rest.takeWhile (· != 10)).length
  | token {t : Token} {more : Nat} (hblank : isBlank b = false)
      (hslash : b = 47 → rest.head? ≠ some 47) (h : TokenBytes b rest t more) :
      Shape b rest (.token t) more
  | stray (hblank : isBlank b = false) (hslash : b ≠ 47) :
      Shape b rest (.fault (.strayByte b)) 0
  | lone (h : b = 38 ∨ b = 124) : Shape b rest (.fault (.loneMark b)) 0

theorem ascii_of_double {b next : UInt8} {longer shorter : Symbol}
    (h : double? b = some (next, longer, shorter)) : b < 128 ∧ next < 128 ∧ next ≠ 47 := by
  revert h
  fun_cases double? b <;> intro h <;> cases h <;> decide

theorem ascii_of_single {b : UInt8} {s : Symbol} (h : single? b = some s) : b < 128 := by
  revert h
  fun_cases single? b <;> intro h <;> cases h <;> decide

theorem Shape.markPiece {b : UInt8} (hblank : isBlank b = false) (hname : isNameStart b = false)
    (hdigit : isDigit b = false) {rest : List UInt8} (hslash : b = 47 → rest.head? ≠ some 47) :
    Shape b rest (markPiece b rest).1 (markPiece b rest).2 := by
  -- a mark that is cut out is looked at as a mark again, for no slash follows it
  have halone : ∀ {more : Nat}, (∀ x ∈ rest.take more, x < 128 ∧ x ≠ 47) →
      piece b (rest.take more) = Scan.markPiece b (rest.take more) := by
    intro more hothers
    have hcomment : (b == 47 && (rest.take more).head? == some 47) = false := by
      rw [Bool.and_eq_false_iff]
      right
      rw [beq_eq_false_iff_ne]
      intro hhead
      exact (hothers 47 (List.mem_of_mem_head? hhead)).2 rfl
    simp [piece, hblank, hname, hdigit, hcomment]
  have hshort : ∀ {m : Symbol}, b < 128 → Scan.markPiece b [] = (.token (.mark m), 0) →
      Shape b rest (.token (.mark m)) 0 := by
    intro m hb hm
    refine .token hblank hslash ⟨hb, by simp, ?_, by rintro x ⟨⟩⟩
    rw [halone (by simp), List.take_zero, hm]
  have hlong : ∀ {m : Symbol} {c : UInt8}, rest.head? = some c → b < 128 → c < 128 ∧ c ≠ 47 →
      Scan.markPiece b [c] = (.token (.mark m), 1) → Shape b rest (.token (.mark m)) 1 := by
    intro m c hhead hb hc hm
    have htake : rest.take 1 = [c] := by rw [List.take_one, hhead]; rfl
    refine .token hblank hslash ⟨hb, by simpa [htake] using hc, ?_, by rintro x ⟨⟩⟩
    rw [halone (by simpa [htake] using hc), htake, hm]
  fun_cases Scan.markPiece b rest with
  | case1 hb hhead =>
      have hascii : b < 128 ∧ b ≠ 47 := by
        rcases (by simpa using hb : b = 38 ∨ b = 124) with rfl | rfl <;> decide
      exact hlong hhead hascii.1 hascii (by simp [Scan.markPiece, hb])
  | case2 hb hhead => exact .lone (by simpa using hb)
  | case3 hb next longer shorter hdouble hhead =>
      obtain ⟨hfirst, hnext⟩ := ascii_of_double hdouble
      exact hlong hhead hfirst hnext (by simp [Scan.markPiece, hb, hdouble])
  | case4 hb next longer shorter hdouble hhead =>
      exact hshort (ascii_of_double hdouble).1 (by simp [Scan.markPiece, hb, hdouble])
  | case5 hb hdouble s hsingle =>
      exact hshort (ascii_of_single hsingle) (by simp [Scan.markPiece, hb, hdouble, hsingle])
  | case6 hb hdouble hsingle =>
      refine .stray hblank ?_
      rintro rfl
      cases hsingle

theorem plain_of_digit {x : UInt8} (h : isDigit x = true) : x < 128 ∧ x ≠ 47 := by
  obtain ⟨-, hslash, -, hascii⟩ := class_of_digit h
  exact ⟨hascii, by simpa using hslash⟩

theorem plain_of_namePart {x : UInt8} (h : isNamePart x = true) : x < 128 ∧ x ≠ 47 := by
  rw [isNamePart, Bool.or_eq_true] at h
  rcases h with h | h
  · obtain ⟨-, hslash, hascii⟩ := class_of_nameStart h
    exact ⟨hascii, by simpa using hslash⟩
  · exact plain_of_digit h

theorem plain_of_number {u : List UInt8} {x : UInt8} (h : x ∈ u.take (numberLength u)) :
    x < 128 ∧ x ≠ 47 := by
  obtain ⟨whole, fraction, exponent, hcut, hwhole, hfraction, hexponent⟩ := number_cases u
  rw [hcut, List.mem_append, List.mem_append] at h
  rcases h with h | h | h
  · exact plain_of_digit (hwhole x h)
  · rcases hfraction with rfl | ⟨d, more, rfl, hdigits⟩
    · cases h
    · rcases List.mem_cons.mp h with rfl | h
      · decide
      · exact plain_of_digit (hdigits x h)
  · rcases hexponent with rfl | ⟨e, sign, d, more, rfl, he, hsign, hdigits⟩
    · cases h
    · rw [List.mem_cons, List.mem_append] at h
      rcases h with rfl | h | h
      · rcases he with rfl | rfl <;> decide
      · rcases hsign with rfl | rfl | rfl
        · cases h
        · rw [List.mem_singleton.mp h]
          decide
        · rw [List.mem_singleton.mp h]
          decide
      · exact plain_of_digit (hdigits x h)

theorem Shape.piece (b : UInt8) (rest : List UInt8) :
    Shape b rest (piece b rest).1 (piece b rest).2 := by
  fun_cases Scan.piece b rest with
  | case1 hblank => exact .blank hblank
  | case2 hblank hslash =>
      rw [Bool.and_eq_true, beq_iff_eq, beq_iff_eq] at hslash
      exact .comment hslash.1 hslash.2
  | case3 hblank hslash hname more =>
      obtain ⟨-, hne, hascii⟩ := class_of_nameStart hname
      have htake : rest.take more.length = more := take_takeWhile _ _
      refine .token (by simpa using hblank) (by simpa using hslash) ⟨hascii, ?_, ?_, ?_⟩
      · intro x hx
        rw [htake] at hx
        exact plain_of_namePart (List.mem_takeWhile_imp hx)
      · have hmore : more.takeWhile isNamePart = more := List.takeWhile_idem
        simp [Scan.piece, hblank, hne, hname, htake, hmore]
      · intro x hx
        unfold wordOf at hx
        split at hx <;> cases hx
  | case4 hblank hslash hname hdigit more =>
      obtain ⟨-, hne, -, hascii⟩ := class_of_digit hdigit
      obtain ⟨x, hx⟩ := Option.isSome_iff_exists.mp (read?_number hdigit rest)
      have hnumber : numberOf (b :: rest.take more) = .token (.number x) := by rw [numberOf, hx]
      rw [hnumber]
      refine .token (by simpa using hblank) (by simpa using hslash)
        ⟨hascii, fun x hx => plain_of_number hx, ?_, ?_⟩
      · have hmore : numberLength (rest.take more) = more := numberLength_take rest
        simp [Scan.piece, hblank, hne, hname, hdigit, hmore, hnumber, List.take_take]
      · rintro y ⟨⟩
        exact hx
  | case5 hblank hslash hname hdigit =>
      exact .markPiece (by simpa using hblank) (by simpa using hname) (by simpa using hdigit)
        (by simpa using hslash)

end Graft.Scan
