import Graft.Proofs.Scanning
import Mathlib.Data.List.ReduceOption

/-!
# How tokens are spelled

A text is cut into pieces from its front, so what follows a part of it can only matter to the last
piece of that part. `Spells` says which tokens a part has, and where its lines end, whatever follows
at a boundary: nothing that a name or a number would go on with.
-/

namespace Graft.Scan

/-! ## Bytes -/

/-- The bytes of a text. -/
def bytesOf (s : String) : List UInt8 := s.toUTF8.data.toList

@[simp] theorem bytesOf_append (s t : String) : bytesOf (s ++ t) = bytesOf s ++ bytesOf t := by
  simp [bytesOf]

theorem bytesOf_inj {s t : String} (h : bytesOf s = bytesOf t) : s = t :=
  String.toByteArray_inj.mp (ByteArray.ext (Array.toList_inj.mp h))

theorem val_ofUInt8 (b : UInt8) : (Char.ofUInt8 b).val = b.toUInt32 := rfl

/-- A byte below 128 is the character of the same number. -/
theorem bytesOf_asciiText {bs : List UInt8} (h : ∀ b ∈ bs, b < 128) :
    bytesOf (asciiText bs) = bs := by
  have hencode : (String.ofList (bs.map Char.ofUInt8)).toUTF8 = bs.toByteArray := by
    rw [String.toUTF8_eq_toByteArray, String.toByteArray_ofList]
    induction bs with
    | nil => rfl
    | cons b rest ih =>
        have hb : b < 128 := h b List.mem_cons_self
        have hsize : (Char.ofUInt8 b).utf8Size = 1 := by
          rw [Char.utf8Size_eq_one_iff, UInt32.le_iff_toNat_le]
          have hb' : b.toNat < 128 := UInt8.lt_iff_toNat_lt.mp hb
          rw [val_ofUInt8, UInt8.toNat_toUInt32]
          show b.toNat ≤ 127
          omega
        rw [List.map_cons, List.utf8Encode_cons, List.utf8Encode_singleton,
          String.utf8EncodeChar_eq_singleton hsize, ih fun c hc => h c (List.mem_cons_of_mem b hc),
          ← List.toByteArray_append]
        simp [val_ofUInt8]
  rw [bytesOf, asciiText, hencode]
  simp

/-! ## Pieces -/

/-- The pieces of a text, each with its first byte. -/
def pieces (bytes : List UInt8) : List (UInt8 × Piece) :=
  match bytes with
  | [] => []
  | b :: rest => (b, (piece b rest).1) :: pieces (rest.drop (piece b rest).2)
termination_by bytes.length
decreasing_by simp only [List.length_drop, List.length_cons]; omega

/-- What a piece shows: a token, the end of a line as `none`, or nothing. -/
def shown : UInt8 × Piece → Option (Option Token)
  | (_, .token t) => some (some t)
  | (b, .blank) => if b = 10 then some none else none
  | (_, .fault _) => none

/-- The tokens of a text, with the ends of its lines between them. -/
def lined (bytes : List UInt8) : List (Option Token) := (pieces bytes).filterMap shown

theorem pieces_cons (b : UInt8) (rest : List UInt8) :
    pieces (b :: rest) = (b, (piece b rest).1) :: pieces (rest.drop (piece b rest).2) := by
  rw [pieces]

/-- Nothing that a name or a number would go on with. -/
structure Boundary (rest : List UInt8) : Prop where
  head : ∀ b ∈ rest.head?, isNamePart b = false
  point : ∀ d more, rest = 46 :: d :: more → isDigit d = false

/-- Wherever `follow` holds of what follows, the text `s` is cut into pieces of its own, which show
`ts` and of which none is a fault. -/
def Spells (follow : List UInt8 → Prop) (s : String) (ts : List (Option Token)) : Prop :=
  ∀ rest, follow rest → ∃ ps, pieces (bytesOf s ++ rest) = ps ++ pieces rest ∧
    ps.filterMap shown = ts ∧ ∀ q ∈ ps, ∀ p, q.2 ≠ .fault p

variable {follow follow' : List UInt8 → Prop} {s s' : String} {ts ts' : List (Option Token)}

theorem Boundary.nil : Boundary [] := ⟨by simp, by simp⟩

theorem Boundary.cons {b : UInt8} (hb : isNamePart b = false) (hpoint : b ≠ 46)
    (rest : List UInt8) : Boundary (b :: rest) := by
  refine ⟨by simpa using hb, ?_⟩
  rintro d more ⟨⟩
  exact absurd rfl hpoint

theorem Boundary.point_cons {b : UInt8} (hb : isDigit b = false) (rest : List UInt8) :
    Boundary (46 :: b :: rest) := by
  constructor
  · rintro x ⟨⟩
    rfl
  · rintro d more ⟨⟩
    exact hb

theorem Spells.empty : Spells follow "" [] := fun _ _ => ⟨[], by simp [bytesOf]⟩

theorem Spells.mono (h : Spells follow s ts) (himp : ∀ rest, follow' rest → follow rest) :
    Spells follow' s ts := fun rest hrest => h rest (himp rest hrest)

theorem Spells.any (h : Spells (fun _ => True) s ts) : Spells follow s ts :=
  h.mono fun _ _ => trivial

theorem Spells.append (h : Spells follow s ts) (h' : Spells follow' s' ts')
    (hfollow : ∀ rest, follow' rest → follow (bytesOf s' ++ rest)) :
    Spells follow' (s ++ s') (ts ++ ts') := by
  intro rest hrest
  obtain ⟨ps', hps', hts', hclear'⟩ := h' rest hrest
  obtain ⟨ps, hps, hts, hclear⟩ := h (bytesOf s' ++ rest) (hfollow rest hrest)
  refine ⟨ps ++ ps', ?_, ?_, ?_⟩
  · rw [bytesOf_append, List.append_assoc, hps, hps', List.append_assoc]
  · rw [List.filterMap_append, hts, hts']
  · intro q hq
    rcases List.mem_append.mp hq with hq | hq
    · exact hclear q hq
    · exact hclear' q hq

/-- A text whose pieces do not look further spells the same whatever follows. -/
theorem Spells.then (h : Spells (fun _ => True) s ts) (h' : Spells follow' s' ts') :
    Spells follow' (s ++ s') (ts ++ ts') := h.append h' fun _ _ => trivial

/-- The tokens of a text, and then those of what follows. -/
theorem Spells.lined (h : Spells follow s ts) {rest : List UInt8} (hrest : follow rest) :
    lined (bytesOf s ++ rest) = ts ++ Scan.lined rest := by
  obtain ⟨ps, hps, hts, -⟩ := h rest hrest
  rw [Scan.lined, hps, List.filterMap_append, hts, Scan.lined]

/-- Where no piece is a fault, the scan reports nothing, and its tokens are those of the pieces. -/
theorem scanFrom_pieces (stop position : Nat) (bytes : List UInt8)
    (h : ∀ q ∈ pieces bytes, ∀ p, q.2 ≠ .fault p) :
    (scanFrom stop position bytes).diagnostics = [] ∧
      (scanFrom stop position bytes).tokens.map Lexeme.token = (Scan.lined bytes).filterMap id := by
  induction position, bytes using scanFrom.induct with
  | case1 position => simp [scanFrom, Scan.lined, pieces]
  | case2 position b rest p more hpiece next ih =>
      rw [pieces_cons, hpiece, List.forall_mem_cons] at h
      obtain ⟨hdiagnostics, htokens⟩ := ih h.2
      rw [scanFrom, hpiece, Scan.lined, pieces_cons, hpiece, List.filterMap_cons]
      cases p with
      | blank =>
          refine ⟨hdiagnostics, htokens.trans ?_⟩
          by_cases hb : b = 10 <;> simp [shown, hb, Scan.lined]
      | token t =>
          refine ⟨hdiagnostics, ?_⟩
          show t :: _ = t :: _
          rw [htokens, Scan.lined]
      | fault problem => exact absurd rfl (h.1 problem)

/-- The scan of a spelled text. The ends of its lines are no tokens. -/
theorem Spells.scan (h : Spells Boundary s ts) :
    (text s).diagnostics = [] ∧ (text s).tokens.map Lexeme.token = ts.reduceOption := by
  obtain ⟨ps, hps, hts, hclear⟩ := h [] .nil
  have hpieces : pieces (bytesOf s) = ps := by simpa [pieces] using hps
  have hlined : Scan.lined (bytesOf s) = ts := by rw [Scan.lined, hpieces, hts]
  obtain ⟨hdiagnostics, htokens⟩ := scanFrom_pieces (bytesOf s).length 0 (bytesOf s)
    (by rwa [hpieces])
  rw [text_eq]
  exact ⟨hdiagnostics, htokens.trans (by rw [hlined]; rfl)⟩

theorem reduceOption_map_some {α : Type} (l : List α) : (l.map some).reduceOption = l := by
  rw [List.reduceOption, List.filterMap_map]
  exact List.filterMap_some

theorem Spells.text {ts : List Token} (h : Spells Boundary s (ts.map some)) :
    (text s).diagnostics = [] ∧ (text s).tokens.map Lexeme.token = ts := by
  have hscan := h.scan
  rwa [reduceOption_map_some] at hscan

/-- One piece. -/
theorem Spells.piece {b : UInt8} {more : List UInt8} {p : Piece} (hs : bytesOf s = b :: more)
    (hp : ∀ q, p ≠ .fault q)
    (h : ∀ rest, follow rest → Scan.piece b (more ++ rest) = (p, more.length)) :
    Spells follow s (shown (b, p)).toList := by
  intro rest hrest
  refine ⟨[(b, p)], ?_, ?_, ?_⟩
  · rw [hs, List.cons_append, pieces_cons, h rest hrest, List.drop_left]
    rfl
  · cases hshown : shown (b, p) <;> simp [hshown]
  · intro q hq
    rw [List.mem_singleton.mp hq]
    exact hp

theorem Spells.token {b : UInt8} {more : List UInt8} {t : Token} (hs : bytesOf s = b :: more)
    (h : ∀ rest, follow rest → Scan.piece b (more ++ rest) = (.token t, more.length)) :
    Spells follow s [some t] := Spells.piece (p := .token t) hs (by rintro _ ⟨⟩) h

/-! ## Blanks -/

theorem Spells.space : Spells follow " " [] := by
  have hbytes : bytesOf " " = [32] := rfl
  exact Spells.piece (p := .blank) hbytes (by rintro _ ⟨⟩) fun _ _ => rfl

theorem Spells.newline : Spells follow "\n" [none] := by
  have hbytes : bytesOf "\n" = [10] := rfl
  exact Spells.piece (p := .blank) hbytes (by rintro _ ⟨⟩) fun _ _ => rfl

theorem Spells.spaces (n : Nat) : Spells follow (String.ofList (List.replicate n ' ')) [] := by
  induction n with
  | zero => exact Spells.empty
  | succ n ih =>
      rw [List.replicate_succ, String.ofList_cons]
      exact Spells.space.then ih

/-! ## Marks -/

/-- The byte that would make a longer mark, or a comment, of a mark. -/
def growth? : Symbol → Option UInt8
  | .dot => some 46
  | .star => some 42
  | .slash => some 47
  | .assign | .bang | .less | .greater => some 61
  | _ => none

/-- What follows does not make a longer mark of `m`. -/
def Apart (m : Symbol) (rest : List UInt8) : Prop := ∀ b ∈ growth? m, rest.head? ≠ some b

theorem Spells.symbol (m : Symbol) : Spells (Apart m) m.text [some (.mark m)] := by
  cases m with
  | dot | star | assign | bang | less | greater | slash =>
      apply Spells.token rfl
      intro rest hrest
      have hne := hrest _ rfl
      simp [Scan.piece, isBlank, isNameStart, isDigit, markPiece, double?, single?, hne]
  | _ => exact Spells.token rfl fun rest _ => rfl

/-- A mark that does not grow. -/
theorem Spells.mark {m : Symbol} (h : growth? m = none) :
    Spells follow m.text [some (.mark m)] := by
  apply (Spells.symbol m).mono
  intro rest _ b hb
  rw [h] at hb
  cases hb

/-! ## Names and numbers -/

/-- The classes of bytes in the order in which they are looked at. -/
theorem class_of_nameStart {b : UInt8} (h : isNameStart b = true) :
    isBlank b = false ∧ (b == 47) = false ∧ b < 128 := by
  simp only [isNameStart, isBlank, Bool.or_eq_true, Bool.and_eq_true, decide_eq_true_eq,
    beq_iff_eq, Bool.or_eq_false_iff, beq_eq_false_iff_ne, ne_eq, UInt8.le_iff_toNat_le,
    UInt8.lt_iff_toNat_lt, ← UInt8.toNat_inj] at h ⊢
  simp at h ⊢
  omega

theorem class_of_digit {b : UInt8} (h : isDigit b = true) :
    isBlank b = false ∧ (b == 47) = false ∧ isNameStart b = false ∧ b < 128 := by
  simp only [isDigit, isNameStart, isBlank, Bool.and_eq_true, decide_eq_true_eq,
    Bool.or_eq_false_iff, beq_eq_false_iff_ne, ne_eq, UInt8.le_iff_toNat_le,
    UInt8.lt_iff_toNat_lt, ← UInt8.toNat_inj] at h ⊢
  simp at h ⊢
  omega

/-- A number starts with a digit, so it has no sign in front. -/
theorem spanSign_of_digit {b : UInt8} (h : isDigit b = true) (cs : List Char) :
    Decimal.spanSign (Char.ofUInt8 b :: cs) = (false, Char.ofUInt8 b :: cs) := by
  have hbyte : ∀ {n : UInt8} {m : Char}, m.toNat = n.toNat → Char.ofUInt8 b = m → b = n := by
    intro n m hm hb
    apply UInt8.toNat_inj.mp
    rw [← hm, ← hb]
    exact (UInt8.toNat_toUInt32 b).symm
  unfold Decimal.spanSign
  split
  · next hminus =>
      obtain rfl : b = 45 := hbyte rfl (List.cons.inj hminus).1
      cases h
  · next hplus =>
      obtain rfl : b = 43 := hbyte rfl (List.cons.inj hplus).1
      cases h
  · rfl

theorem takeWhile_append_stop {p : UInt8 → Bool} {front rest : List UInt8}
    (hfront : ∀ b ∈ front, p b = true) (hrest : ∀ b ∈ rest.head?, p b = false) :
    (front ++ rest).takeWhile p = front := by
  rw [List.takeWhile_append_of_pos hfront]
  cases rest with
  | nil => simp
  | cons b rest =>
      have hb := hrest b rfl
      simp [hb]

theorem ascii_of_word {b : UInt8} {more : List UInt8} (hstart : isNameStart b = true)
    (hmore : ∀ x ∈ more, isNamePart x = true) : ∀ x ∈ b :: more, x < 128 := by
  intro x hx
  rcases List.mem_cons.mp hx with rfl | hx
  · exact (class_of_nameStart hstart).2.2
  · have hpart := hmore x hx
    rw [isNamePart, Bool.or_eq_true] at hpart
    rcases hpart with hpart | hpart
    · exact (class_of_nameStart hpart).2.2
    · exact (class_of_digit hpart).2.2.2

/-- The text of a name or of a reserved word. -/
structure IsWord (s : String) : Prop where
  spelled : ∃ b more, s = asciiText (b :: more) ∧ isNameStart b = true ∧
    ∀ x ∈ more, isNamePart x = true

/-- The text of a name. -/
structure IsName (s : String) : Prop extends IsWord s where
  free : Keyword.ofText? s = none

theorem Spells.word {s : String} (h : IsWord s) :
    Spells Boundary s [some (wordOf s)] := by
  obtain ⟨b, more, hs, hstart, hmore⟩ := h.spelled
  obtain ⟨hblank, hslash, -⟩ := class_of_nameStart hstart
  rw [hs]
  apply Spells.token (bytesOf_asciiText (ascii_of_word hstart hmore))
  intro rest hrest
  rw [Scan.piece, hblank, hslash, hstart]
  simp [takeWhile_append_stop hmore hrest.head]

theorem Spells.name {s : String} (h : IsName s) :
    Spells Boundary s [some (.name s)] := by
  have hword := Spells.word h.toIsWord
  rwa [wordOf, h.free] at hword

theorem IsWord.of_bytes {s : String} {b : UInt8} {more : List UInt8} (h : bytesOf s = b :: more)
    (hstart : isNameStart b = true) (hmore : more.all isNamePart = true) : IsWord s := by
  have hparts : ∀ x ∈ more, isNamePart x = true := List.all_eq_true.mp hmore
  refine ⟨b, more, bytesOf_inj ?_, hstart, hparts⟩
  rw [h, bytesOf_asciiText]
  exact ascii_of_word hstart hparts

theorem isWord_keyword (k : Keyword) : IsWord k.text := by
  cases k <;> exact .of_bytes rfl rfl rfl

theorem Spells.keyword (k : Keyword) : Spells Boundary k.text [some (.word k)] := by
  have hword := Spells.word (isWord_keyword k)
  have hfound : Keyword.ofText? k.text = some k := by cases k <;> rfl
  rwa [wordOf, hfound] at hword

/-- Digits, with a point between them or without one, that are read as a number. -/
structure IsNumeral (s : String) (x : Float) : Prop where
  spelled : ∃ b whole fraction, s = asciiText (b :: (whole ++ fraction)) ∧
    (∀ d ∈ b :: whole, isDigit d = true) ∧
    (fraction = [] ∨ ∃ d more, fraction = 46 :: d :: more ∧ ∀ x ∈ d :: more, isDigit x = true) ∧
    Decimal.read? ((b :: (whole ++ fraction)).map Char.ofUInt8) = some x

theorem Boundary.digit {rest : List UInt8} (h : Boundary rest) :
    ∀ b ∈ rest.head?, isDigit b = false := by
  intro b hb
  have hpart := h.head b hb
  rw [isNamePart, Bool.or_eq_false_iff] at hpart
  exact hpart.2

theorem Boundary.fractionLength_eq {rest : List UInt8} (h : Boundary rest) :
    fractionLength rest = 0 := by
  unfold fractionLength
  split
  · next d more =>
      rw [h.point d more rfl]
      rfl
  · rfl

theorem Boundary.exponentLength_eq {rest : List UInt8} (h : Boundary rest) :
    exponentLength rest = 0 := by
  unfold exponentLength
  split
  · next e s more =>
      have hpart : isNamePart e = false := h.head e rfl
      have he : (e == 101 || e == 69) = false := by
        rw [Bool.or_eq_false_iff, beq_eq_false_iff_ne, beq_eq_false_iff_ne]
        constructor
        · rintro rfl
          cases hpart
        · rintro rfl
          cases hpart
      rw [he]
      rfl
  · rfl

theorem numberLength_numeral {whole fraction rest : List UInt8} (h : Boundary rest)
    (hwhole : ∀ d ∈ whole, isDigit d = true)
    (hfraction : fraction = [] ∨
      ∃ d more, fraction = 46 :: d :: more ∧ ∀ x ∈ d :: more, isDigit x = true) :
    numberLength (whole ++ fraction ++ rest) = (whole ++ fraction).length := by
  rw [numberLength]
  obtain rfl | ⟨d, more, rfl, hmore⟩ := hfraction
  · rw [List.append_nil, takeWhile_append_stop hwhole h.digit, List.drop_left,
      h.fractionLength_eq]
    simp [h.exponentLength_eq]
  · rw [List.append_assoc, takeWhile_append_stop hwhole (by rintro b ⟨⟩; rfl), List.drop_left]
    have hfractionLength : fractionLength (46 :: d :: more ++ rest) = 2 + more.length := by
      rw [List.cons_append, List.cons_append, fractionLength, if_pos (hmore d List.mem_cons_self),
        takeWhile_append_stop (fun x hx => hmore x (List.mem_cons_of_mem d hx)) h.digit]
    have hdrop : (whole ++ (46 :: d :: more ++ rest)).drop (whole.length + (2 + more.length)) =
        rest := by
      rw [← List.append_assoc]
      exact List.drop_left' (by simp; omega)
    rw [hfractionLength, hdrop, h.exponentLength_eq]
    simp
    omega

theorem Spells.number {s : String} {x : Float} (h : IsNumeral s x) :
    Spells Boundary s [some (.number x)] := by
  obtain ⟨b, whole, fraction, hs, hdigits, hfraction, hread⟩ := h.spelled
  obtain ⟨hblank, hslash, hstart, -⟩ := class_of_digit (hdigits b List.mem_cons_self)
  have hascii : ∀ x ∈ b :: (whole ++ fraction), x < 128 := by
    intro x hx
    rw [← List.cons_append] at hx
    rcases List.mem_append.mp hx with hx | hx
    · exact (class_of_digit (hdigits x hx)).2.2.2
    · obtain rfl | ⟨d, more, rfl, hmore⟩ := hfraction
      · cases hx
      · rcases List.mem_cons.mp hx with rfl | hx
        · decide
        · exact (class_of_digit (hmore x hx)).2.2.2
  rw [hs]
  apply Spells.token (bytesOf_asciiText hascii)
  intro rest hrest
  have hlength := numberLength_numeral hrest (fun d hd => hdigits d (List.mem_cons_of_mem b hd))
    hfraction
  rw [Scan.piece, hblank, hslash, hstart, hdigits b List.mem_cons_self]
  show (numberOf (b :: (whole ++ fraction ++ rest).take (numberLength (whole ++ fraction ++ rest))),
    numberLength (whole ++ fraction ++ rest)) = _
  rw [hlength, List.take_left, numberOf, hread]

end Graft.Scan
