import Mathlib.Data.List.Forall2
import PhpIndex.Proofs.Index.Words
import PhpIndex.Proofs.Store.Keys
import PhpIndex.Proofs.Text.Boundaries

/-!
# Where words begin

A name is cut behind each last underscore of a run and, within its stretches without underscores,
at each change of case. Both cuts lie between two neighbouring characters, so the name is gone
through once from left to right for each of them. The words are what follows these cuts, each
once, where it comes first, behind the name as a whole.
Main statement: `words_at_cuts`.
-/
namespace PhpIndex

namespace Words

/-! ## Cuts between neighbours -/

section Neighbours
variable {α : Type} (isCut : Char → Char → Option Char → Bool) (piece : List Char → α)

/-- Takes a piece at each cut, which is known from the characters in front of it and behind it,
and from the next one. -/
def pieces : List Char → List α
  | a :: b :: rest =>
    if isCut a b rest.head? then piece (b :: rest) :: pieces (b :: rest) else pieces (b :: rest)
  | _ => []

/-- Whether there is a cut behind the character at a place. -/
def isCutBehind (name : List Char) (place : Nat) : Bool :=
  match name.drop place with
  | a :: b :: rest => isCut a b rest.head?
  | _ => false

/-- The places of the characters in front of a cut, from left to right. -/
def cuts (name : List Char) : List Nat :=
  (List.range (name.length - 1)).filter (isCutBehind isCut name)

theorem isCutBehind_iff {name : List Char} {place : Nat} : isCutBehind isCut name place = true ↔
    ∃ a b, name[place]? = some a ∧ name[place + 1]? = some b ∧
      isCut a b name[place + 2]? = true := by
  have hbehind (k : Nat) : name[place + k]? = (name.drop place)[k]? := List.getElem?_drop.symm
  have hplace : name[place]? = (name.drop place)[0]? := hbehind 0
  rw [isCutBehind, hplace, hbehind, hbehind]
  match name.drop place with
  | [] | [_] => simp
  | a :: b :: rest => simp [List.head?_eq_getElem?]

theorem pairwise_cuts (name : List Char) : (cuts isCut name).Pairwise (· < ·) :=
  List.pairwise_lt_range.filter _

theorem mem_cuts {name : List Char} {place : Nat} : place ∈ cuts isCut name ↔
    ∃ a b, name[place]? = some a ∧ name[place + 1]? = some b ∧
      isCut a b name[place + 2]? = true := by
  rw [cuts, List.mem_filter, isCutBehind_iff, List.mem_range, and_iff_right_iff_imp]
  rintro ⟨a, b, -, hb, -⟩
  have hlt := (List.getElem?_eq_some_iff.1 hb).1
  omega

theorem cuts_cons (a b : Char) (rest : List Char) : cuts isCut (a :: b :: rest) =
    (if isCut a b rest.head? then [0] else []) ++ (cuts isCut (b :: rest)).map (· + 1) := by
  have hlength : (a :: b :: rest).length - 1 = (b :: rest).length - 1 + 1 := rfl
  rw [cuts, hlength, List.range_succ_eq_map, List.filter_cons, List.filter_map, cuts]
  have hfirst : isCutBehind isCut (a :: b :: rest) 0 = isCut a b rest.head? := rfl
  have hrest : isCutBehind isCut (a :: b :: rest) ∘ Nat.succ = isCutBehind isCut (b :: rest) := rfl
  rw [hfirst, hrest]
  split <;> rfl

/-- Going through a name leads to what follows its cuts. -/
theorem pieces_eq_map (name : List Char) :
    pieces isCut piece name = (cuts isCut name).map fun place => piece (name.drop (place + 1)) := by
  induction name with
  | nil => rfl
  | cons a rest ih =>
    cases rest with
    | nil => rfl
    | cons b rest =>
      rw [pieces, cuts_cons, List.map_append, List.map_map, ih]
      split <;> rfl

end Neighbours

/-! ## Underscores and capitals -/

/-- Between an underscore and another character. -/
def endsUnderscores (a b : Char) (_ : Option Char) : Bool := a == '_' && b != '_'

/-- The characters up to the next underscore. -/
def stretch (name : List Char) : List Char := name.takeWhile (· != '_')

theorem afterUnderscores_eq (name : List Char) :
    afterUnderscores name = pieces endsUnderscores id name := by
  induction name with
  | nil => rfl
  | cons a rest ih =>
    cases rest with
    | nil => rfl
    | cons b rest => simp [afterUnderscores, pieces, endsUnderscores, ih]

theorem isCaseBoundary_underscore (c : Char) (after? : Option Char) :
    isCaseBoundary '_' c after? = false := by
  have hlower : Text.isLowerCase '_' = false := by decide +kernel
  have hupper : Text.isUpperCase '_' = false := by decide +kernel
  simp [isCaseBoundary, hlower, hupper]

/-- An underscore ends a stretch, and so does it here that there is no next character. -/
theorem isCaseBoundary_before_underscore (a b : Char) :
    isCaseBoundary a b (some '_') = isCaseBoundary a b none := by
  have hlower : Text.isLowerCase '_' = false := by decide +kernel
  simp [isCaseBoundary, hlower]

theorem isCaseBoundary_at_underscore (a : Char) (after? : Option Char) :
    isCaseBoundary a '_' after? = false := by
  have hupper : Text.isUpperCase '_' = false := by decide +kernel
  simp [isCaseBoundary, hupper]

/-- The first stretch of a name reaches to its first underscore. -/
theorem exists_splitAll (name : List Char) :
    ∃ others, Chars.splitAll '_' name = stretch name :: others := by
  induction name with
  | nil => exact ⟨[], rfl⟩
  | cons c rest ih =>
    obtain ⟨others, hrest⟩ := ih
    by_cases hc : c = '_'
    · exact ⟨stretch rest :: others, by simp [Chars.splitAll, stretch, hc, hrest]⟩
    · exact ⟨others, by simp [Chars.splitAll, stretch, hc, hrest]⟩

theorem isCaseBoundary_stretch (a b : Char) (rest : List Char) :
    isCaseBoundary a b (stretch rest).head? = isCaseBoundary a b rest.head? := by
  cases rest with
  | nil => rfl
  | cons c rest =>
    by_cases hc : c = '_'
    · subst hc
      exact (isCaseBoundary_before_underscore a b).symm
    · simp [stretch, hc]

/-- To look for changes of case stretch by stretch is to look for them in the whole name, where
no underscore stands at one. -/
theorem flatMap_fromCapitals (name : List Char) :
    (Chars.splitAll '_' name).flatMap fromCapitals = pieces isCaseBoundary stretch name := by
  induction name with
  | nil => rfl
  | cons a rest ih =>
    obtain ⟨others, hsplit⟩ := exists_splitAll rest
    by_cases ha : a = '_'
    · subst ha
      have hhere : pieces isCaseBoundary stretch ('_' :: rest) =
          pieces isCaseBoundary stretch rest := by
        cases rest with
        | nil => rfl
        | cons b rest => rw [pieces, if_neg (by simp [isCaseBoundary_underscore])]
      rw [hhere, ← ih]
      rfl
    · have hwhole : Chars.splitAll '_' (a :: rest) = (a :: stretch rest) :: others := by
        simp [Chars.splitAll, ha, hsplit]
      rw [hsplit, List.flatMap_cons] at ih
      rw [hwhole, List.flatMap_cons]
      cases rest with
      | nil => exact ih
      | cons b rest =>
        by_cases hb : b = '_'
        · subst hb
          have hhere : pieces isCaseBoundary stretch (a :: '_' :: rest) =
              pieces isCaseBoundary stretch ('_' :: rest) := by
            rw [pieces, if_neg (by simp [isCaseBoundary_at_underscore])]
          rw [hhere, ← ih]
          rfl
        · have hstretch : stretch (b :: rest) = b :: stretch rest := by simp [stretch, hb]
          rw [hstretch] at ih
          rw [hstretch, fromCapitals, pieces, isCaseBoundary_stretch, ← ih, hstretch]
          split <;> rfl

/-! ## Cuts by what stands around them -/

/-- An underscore stands at the place and something else behind it. -/
def TailBehind (name : List Char) (place : Nat) : Prop :=
  name[place]? = some '_' ∧ ∃ c, name[place + 1]? = some c ∧ c ≠ '_'

/-- A capital stands behind the place, and is not the first character between two underscores:
at the place is a small letter or a digit, or a capital while a small letter comes next. -/
def HumpBehind (name : List Char) (place : Nat) : Prop :=
  ∃ before c, name[place]? = some before ∧ before ≠ '_' ∧ name[place + 1]? = some c ∧
    Text.isUpperCase c = true ∧
    (Text.isLowerCase before = true ∨ before.isDigit = true ∨
      Text.isUpperCase before = true ∧
        ∃ next, name[place + 2]? = some next ∧ Text.isLowerCase next = true)

/-- The places in front of the words that run to the end of the name, from left to right. -/
def tails (name : List Char) : List Nat := cuts endsUnderscores name

/-- The places in front of the words that run to the next underscore, from left to right. -/
def humps (name : List Char) : List Nat := cuts isCaseBoundary name

theorem mem_tails {name : List Char} {place : Nat} :
    place ∈ tails name ↔ TailBehind name place := by
  rw [tails, mem_cuts, TailBehind]
  constructor
  · rintro ⟨a, b, ha, hb, hcut⟩
    simp only [endsUnderscores, Bool.and_eq_true, beq_iff_eq, bne_iff_ne] at hcut
    exact ⟨hcut.1 ▸ ha, b, hb, hcut.2⟩
  · rintro ⟨ha, b, hb, hne⟩
    exact ⟨'_', b, ha, hb, by simp [endsUnderscores, hne]⟩

theorem mem_humps {name : List Char} {place : Nat} :
    place ∈ humps name ↔ HumpBehind name place := by
  rw [humps, mem_cuts, HumpBehind]
  refine exists_congr fun a => exists_congr fun b => ?_
  have hcut : isCaseBoundary a b name[place + 2]? = true ↔ Text.isUpperCase b = true ∧
      (Text.isLowerCase a = true ∨ a.isDigit = true ∨ Text.isUpperCase a = true ∧
        ∃ next, name[place + 2]? = some next ∧ Text.isLowerCase next = true) := by
    simp [isCaseBoundary, Option.any_eq_true, or_assoc]
  have hunderscore (h : isCaseBoundary a b name[place + 2]? = true) : a ≠ '_' := by
    rintro rfl
    rw [isCaseBoundary_underscore] at h
    cases h
  rw [← hcut]
  exact ⟨fun ⟨ha, hb, h⟩ => ⟨ha, hunderscore h, hb, h⟩, fun ⟨ha, _, hb, h⟩ => ⟨ha, hb, h⟩⟩

/-- The name and what follows its cuts, in the order in which they are found. -/
def found (name : List Char) : List (List Char) :=
  name :: (tails name).map (fun place => name.drop (place + 1)) ++
    (humps name).map (fun place => stretch (name.drop (place + 1)))

theorem ofChars_eq (name : List Char) :
    ofChars name = ((found name).filter (fun w => !w.isEmpty)).eraseDups := by
  rw [ofChars, afterUnderscores_eq, flatMap_fromCapitals, pieces_eq_map, pieces_eq_map]
  rfl

/-! ## Each word once -/

/-- Of what is kept the order of first occurrences stays. -/
theorem idxOf_lt_of_filter {α : Type} [BEq α] [LawfulBEq α] {p : α → Bool} {l : List α} {a b : α}
    (ha : p a = true) (hb : p b = true) (h : (l.filter p).idxOf a < (l.filter p).idxOf b) :
    l.idxOf a < l.idxOf b := by
  induction l with
  | nil => simp at h
  | cons x l ih =>
    have hkept {c : α} (hc : p c = true) (hx : ¬ p x = true) : (x == c) = false := by
      rw [beq_eq_false_iff_ne]
      rintro rfl
      exact hx hc
    by_cases hx : p x = true
    · rw [List.filter_cons_of_pos hx, List.idxOf_cons, List.idxOf_cons] at h
      rw [List.idxOf_cons, List.idxOf_cons]
      cases hxb : x == b
      case true => simp [hxb] at h
      cases hxa : x == a
      case true => simp
      simp only [hxa, hxb, cond_false, Nat.add_lt_add_iff_right] at h ⊢
      exact ih h
    · rw [List.filter_cons_of_neg hx] at h
      rw [List.idxOf_cons, List.idxOf_cons, hkept ha hx, hkept hb hx]
      exact Nat.succ_lt_succ (ih h)

/-- What is left without repetitions stands in the order of first occurrences. -/
theorem pairwise_eraseDups {α : Type} [BEq α] [LawfulBEq α] (l : List α) :
    l.eraseDups.Pairwise fun a b => l.idxOf a < l.idxOf b := by
  induction hlength : l.length using Nat.strongRecOn generalizing l with
  | _ n ih =>
    cases l with
    | nil => exact List.Pairwise.nil
    | cons x l =>
      have hshort : (l.filter fun b => !b == x).length < n := by
        rw [← hlength]
        exact Nat.lt_succ_of_le (List.length_filter_le _ _)
      have hother {c : α} (hc : c ∈ (l.filter fun b => !b == x).eraseDups) :
          (!c == x) = true := (List.mem_filter.1 (List.mem_eraseDups.1 hc)).2
      have hne {c : α} (hc : (!c == x) = true) : (x == c) = false := by
        rw [beq_eq_false_iff_ne]
        rintro rfl
        simp at hc
      rw [List.eraseDups_cons, List.pairwise_cons]
      constructor
      · intro b hb
        simp [List.idxOf_cons, hne (hother hb)]
      · refine (ih _ hshort _ rfl).imp_of_mem fun {a b} ha hb h => ?_
        rw [List.idxOf_cons, List.idxOf_cons, hne (hother ha), hne (hother hb)]
        exact Nat.succ_lt_succ (idxOf_lt_of_filter (hother ha) (hother hb) h)

theorem mem_ofChars {name w : List Char} : w ∈ ofChars name ↔ w ∈ found name ∧ w ≠ [] := by
  rw [ofChars_eq, List.mem_eraseDups, List.mem_filter]
  simp

theorem pairwise_ofChars (name : List Char) :
    (ofChars name).Pairwise fun v w => (found name).idxOf v < (found name).idxOf w := by
  have hnonempty {w : List Char} (hw : w ∈ ofChars name) : (!w.isEmpty) = true := by
    simpa using (mem_ofChars.1 hw).2
  rw [ofChars_eq] at hnonempty ⊢
  exact (pairwise_eraseDups _).imp_of_mem fun {v w} hv hw h =>
    idxOf_lt_of_filter (p := fun w : List Char => !w.isEmpty) (hnonempty hv) (hnonempty hw) h

/-! ## Cuts by bytes -/

/-- The number of bytes in front of the character behind a place. -/
def offsetBehind (name : List Char) (place : Nat) : Nat :=
  Position.byteLength (name.take (place + 1))

/-- The bytes of what follows an underscore. -/
def tailRange (name : List Char) (place : Nat) : Nat × Nat :=
  (offsetBehind name place, Position.byteLength name)

/-- The bytes of what follows a change of case. -/
def humpRange (name : List Char) (place : Nat) : Nat × Nat :=
  (offsetBehind name place,
    offsetBehind name place + Position.byteLength (stretch (name.drop (place + 1))))

/-- The bytes of all that is found, in this order. -/
def ranges (name : List Char) : List (Nat × Nat) :=
  (0, Position.byteLength name) :: (tails name).map (tailRange name) ++
    (humps name).map (humpRange name)

/-- A beginning of a name and a part of the rest are cut off between characters. -/
theorem slice?_part {name : String} (front piece back : List Char)
    (h : name.toList = front ++ piece ++ back) :
    let start := Position.byteLength front
    let stop := start + Position.byteLength piece
    Position.isBoundary name.toList start = true ∧ Position.isBoundary name.toList stop = true ∧
      Text.slice? name start stop = some (String.ofList piece) := by
  refine ⟨?_, ?_, Text.slice?_of_append h⟩
  · exact Position.isBoundary_iff.2 ⟨front, ⟨piece ++ back, by rw [h, List.append_assoc]⟩, rfl⟩
  · rw [← Position.byteLength_append]
    exact Position.isBoundary_iff.2 ⟨front ++ piece, ⟨back, h.symm⟩, rfl⟩

/-- No cut is inside a character. -/
theorem slices_ranges (name : String) : List.Forall₂ (fun range w =>
    Position.isBoundary name.toList range.1 = true ∧
    Position.isBoundary name.toList range.2 = true ∧
    Text.slice? name range.1 range.2 = some (String.ofList w))
    (ranges name.toList) (found name.toList) := by
  have hcut (place : Nat) : name.toList =
      name.toList.take (place + 1) ++ name.toList.drop (place + 1) :=
    (List.take_append_drop _ _).symm
  refine List.rel_append (.cons ?_ ?_) ?_
  · have hwhole := slice?_part [] name.toList [] (List.append_nil _).symm
    simpa [Position.byteLength] using hwhole
  · rw [List.forall₂_map_left_iff, List.forall₂_map_right_iff, List.forall₂_same]
    intro place _
    have hlength : Position.byteLength name.toList = offsetBehind name.toList place +
        Position.byteLength (name.toList.drop (place + 1)) := by
      conv_lhs => rw [hcut place]
      rw [Position.byteLength_append, offsetBehind]
    have hpart := slice?_part (name.toList.take (place + 1)) (name.toList.drop (place + 1)) []
      (by rw [List.append_nil]; exact hcut place)
    simp only [tailRange, hlength]
    exact hpart
  · rw [List.forall₂_map_left_iff, List.forall₂_map_right_iff, List.forall₂_same]
    intro place _
    have hrest : name.toList.drop (place + 1) = stretch (name.toList.drop (place + 1)) ++
        (name.toList.drop (place + 1)).dropWhile (· != '_') :=
      (List.takeWhile_append_dropWhile ..).symm
    refine slice?_part (name.toList.take (place + 1)) (stretch (name.toList.drop (place + 1)))
      ((name.toList.drop (place + 1)).dropWhile (· != '_')) ?_
    rw [List.append_assoc, ← hrest]
    exact hcut place

theorem underscore_mem_utf8EncodeChar {c : Char} :
    (95 : UInt8) ∈ String.utf8EncodeChar c ↔ c = '_' := by
  have h := Bytes.mem_ofText_iff (c := '_') (by decide) (s := String.ofList [c])
  rw [Bytes.ofText_eq_flatMap, String.toList_ofList, List.flatMap_singleton,
    List.mem_singleton] at h
  exact h.trans eq_comm

/-- The byte of an underscore stands where an underscore does. -/
theorem underscore_byte_iff (name : List Char) (offset : Nat) :
    (name.flatMap String.utf8EncodeChar)[offset]? = some 95 ↔
      ∃ place, name[place]? = some '_' ∧ Position.byteLength (name.take place) = offset := by
  induction name generalizing offset with
  | nil => simp
  | cons c rest ih =>
    have hplace : (∃ place, (c :: rest)[place]? = some '_' ∧
        Position.byteLength ((c :: rest).take place) = offset) ↔
        (c = '_' ∧ offset = 0) ∨ ∃ place, rest[place]? = some '_' ∧
          c.utf8Size + Position.byteLength (rest.take place) = offset := by
      constructor
      · rintro ⟨place, hplace, hlength⟩
        cases place with
        | zero => exact .inl ⟨by simpa using hplace, hlength.symm⟩
        | succ place => exact .inr ⟨place, by simpa using hplace, hlength⟩
      · rintro (⟨hc, hoffset⟩ | ⟨place, hplace, hlength⟩)
        · exact ⟨0, by simpa using hc, hoffset.symm⟩
        · exact ⟨place + 1, by simpa using hplace, hlength⟩
    have hpos := c.utf8Size_pos
    rw [hplace, List.flatMap_cons, List.getElem?_append, String.length_utf8EncodeChar]
    split
    next hlt =>
      have hrest : ¬∃ place, rest[place]? = some '_' ∧
          c.utf8Size + Position.byteLength (rest.take place) = offset := by
        rintro ⟨place, -, hlength⟩
        omega
      rw [or_iff_left hrest]
      constructor
      · intro hbyte
        obtain rfl := underscore_mem_utf8EncodeChar.1 (List.mem_of_getElem? hbyte)
        have hone : '_'.utf8Size = 1 := rfl
        exact ⟨rfl, by omega⟩
      · rintro ⟨rfl, rfl⟩
        rfl
    next hge =>
      have hfirst : ¬(c = '_' ∧ offset = 0) := by
        rintro ⟨-, rfl⟩
        omega
      rw [or_iff_right hfirst, ih]
      refine exists_congr fun place => and_congr_right fun _ => ?_
      omega

/-- The first byte is that of an underscore just if the first character is one. -/
theorem exists_first_byte_iff (name : List Char) :
    (∃ b, (name.flatMap String.utf8EncodeChar)[0]? = some b ∧ b ≠ 95) ↔
      ∃ c, name[0]? = some c ∧ c ≠ '_' := by
  cases name with
  | nil => simp
  | cons c rest =>
    have hpos : 0 < (String.utf8EncodeChar c).length :=
      String.length_utf8EncodeChar c ▸ c.utf8Size_pos
    have hfirst := List.getElem_mem hpos
    rw [List.flatMap_cons, List.getElem?_append_left hpos, List.getElem?_eq_getElem hpos]
    have hiff : (String.utf8EncodeChar c)[0] = 95 ↔ c = '_' := by
      constructor
      · intro h
        exact underscore_mem_utf8EncodeChar.1 (h ▸ hfirst)
      · rintro rfl
        rfl
    simpa using not_congr hiff

/-- Looking for the last underscores of runs byte by byte finds what follows them in the text. -/
theorem tailBehind_bytes_iff (name : String) (offset : Nat) :
    ((Bytes.ofText name)[offset]? = some 95 ∧
      ∃ b, (Bytes.ofText name)[offset + 1]? = some b ∧ b ≠ 95) ↔
      ∃ place ∈ tails name.toList, offsetBehind name.toList place = offset + 1 := by
  have hsize (chars : List Char) :
      (chars.flatMap String.utf8EncodeChar).length = Position.byteLength chars := by
    induction chars with
    | nil => rfl
    | cons c rest ih => simp [Position.byteLength, ih]
  have hnext {place : Nat} (hplace : offsetBehind name.toList place = offset + 1) :
      (∃ b, (Bytes.ofText name)[offset + 1]? = some b ∧ b ≠ 95) ↔
        ∃ c, name.toList[place + 1]? = some c ∧ c ≠ '_' := by
    have hfirst := exists_first_byte_iff (name.toList.drop (place + 1))
    have hbytes : Bytes.ofText name =
        (name.toList.take (place + 1)).flatMap String.utf8EncodeChar ++
          (name.toList.drop (place + 1)).flatMap String.utf8EncodeChar := by
      rw [← List.flatMap_append, List.take_append_drop, Bytes.ofText_eq_flatMap]
    have hbehind : (Bytes.ofText name)[offset + 1]? =
        ((name.toList.drop (place + 1)).flatMap String.utf8EncodeChar)[0]? := by
      have hlength := hsize (name.toList.take (place + 1))
      rw [← offsetBehind, hplace] at hlength
      rw [hbytes, ← hlength, List.getElem?_append_right (Nat.le_refl _), Nat.sub_self]
    rw [hbehind, hfirst, List.getElem?_drop, Nat.add_zero]
  have hbehind {place : Nat} (hunderscore : name.toList[place]? = some '_') :
      offsetBehind name.toList place = Position.byteLength (name.toList.take place) + 1 := by
    rw [offsetBehind, List.take_add_one, hunderscore, Position.byteLength_append]
    rfl
  rw [Bytes.ofText_eq_flatMap, underscore_byte_iff]
  simp only [mem_tails, TailBehind]
  constructor
  · rintro ⟨⟨place, hplace, hlength⟩, hbyte⟩
    have hoffset : offsetBehind name.toList place = offset + 1 := by rw [hbehind hplace, hlength]
    rw [← Bytes.ofText_eq_flatMap, hnext hoffset] at hbyte
    exact ⟨place, ⟨hplace, hbyte⟩, hoffset⟩
  · rintro ⟨place, ⟨hplace, hbyte⟩, hoffset⟩
    rw [← hnext hoffset, Bytes.ofText_eq_flatMap] at hbyte
    have hlength := hbehind hplace
    exact ⟨⟨place, hplace, by omega⟩, hbyte⟩

end Words

/-- The words of a name, each once and not empty: the name itself, what follows an underscore in
front of something else up to the end, and what follows a change of case up to the next
underscore or the end. They stand in the order in which they are found first when the name comes
first, then all that follows underscores from left to right, then all that follows changes of
case from left to right. All cuts are between characters, although underscores are looked for
byte by byte. -/
theorem words_at_cuts (name : String) :
    let chars := name.toList
    (∀ w, w ∈ Words.ofName name ↔ w ≠ "" ∧ (w = name ∨
      (∃ place, Words.TailBehind chars place ∧ w = String.ofList (chars.drop (place + 1))) ∨
      ∃ place, Words.HumpBehind chars place ∧
        w = String.ofList ((chars.drop (place + 1)).takeWhile (· != '_')))) ∧
    (Words.ofName name).Nodup ∧
    ((Words.tails chars).Pairwise (· < ·) ∧
      ∀ place, place ∈ Words.tails chars ↔ Words.TailBehind chars place) ∧
    ((Words.humps chars).Pairwise (· < ·) ∧
      ∀ place, place ∈ Words.humps chars ↔ Words.HumpBehind chars place) ∧
    ((Words.ofName name).Pairwise fun v w =>
      (Words.found chars).idxOf v.toList < (Words.found chars).idxOf w.toList) ∧
    List.Forall₂ (fun range w => Position.isBoundary chars range.1 = true ∧
      Position.isBoundary chars range.2 = true ∧
      Text.slice? name range.1 range.2 = some (String.ofList w))
      (Words.ranges chars) (Words.found chars) ∧
    ∀ offset, ((Bytes.ofText name)[offset]? = some 95 ∧
      ∃ b, (Bytes.ofText name)[offset + 1]? = some b ∧ b ≠ 95) ↔
      ∃ place ∈ Words.tails chars, Words.offsetBehind chars place = offset + 1 := by
  intro chars
  have hordered : (Words.ofName name).Pairwise fun v w =>
      (Words.found chars).idxOf v.toList < (Words.found chars).idxOf w.toList := by
    rw [Words.ofName, List.pairwise_map]
    simpa using Words.pairwise_ofChars chars
  refine ⟨fun w => ?_, hordered.imp fun h e => ?_,
    ⟨Words.pairwise_cuts _ _, fun place => Words.mem_tails⟩,
    ⟨Words.pairwise_cuts _ _, fun place => Words.mem_humps⟩, hordered,
    Words.slices_ranges name, Words.tailBehind_bytes_iff name⟩
  · have hmem : w ∈ Words.ofName name ↔ w.toList ∈ Words.ofChars chars := by
      rw [Words.ofName, List.mem_map]
      constructor
      · rintro ⟨cs, hcs, rfl⟩
        rwa [String.toList_ofList]
      · exact fun h => ⟨w.toList, h, String.ofList_toList⟩
    have hchars (cs : List Char) : cs = w.toList ↔ w = String.ofList cs := by
      rw [← String.toList_inj, String.toList_ofList, eq_comm]
    have hempty : w.toList ≠ [] ↔ w ≠ "" := by simp
    rw [hmem, Words.mem_ofChars, hempty, and_comm, Words.found, List.mem_append, List.mem_cons,
      List.mem_map, List.mem_map, String.toList_inj, or_assoc]
    simp only [Words.mem_tails, Words.mem_humps, hchars, Words.stretch]
  · rw [e] at h
    exact Nat.lt_irrefl _ h

example : Words.ofName "__get_userHTTPCode" =
    ["__get_userHTTPCode", "get_userHTTPCode", "userHTTPCode", "HTTPCode", "Code"] := by
  decide +kernel

end PhpIndex
