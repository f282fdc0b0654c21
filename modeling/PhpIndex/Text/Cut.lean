/-!
# Cutting text

Trimming, leading parts and separators of strings, by the characters of the string from left to
right. The functions in `Chars` work on lists of characters, which is where facts are stated;
those in `Text` are the same on strings.
Main statements: `splitAll_intercalate`, that pieces without separators are found again in their
text, and `splitFirst_eq_some`, that a cut at the first separator loses only the separator.
-/
namespace PhpIndex.Text

/-- The White_Space property of Unicode. -/
def isBlank (c : Char) : Bool :=
  ('\t' ≤ c && c ≤ '\r') || c == ' ' || c == '\u0085' || c == '\u00A0' || c == '\u1680' ||
    ('\u2000' ≤ c && c ≤ '\u200A') || c == '\u2028' || c == '\u2029' || c == '\u202F' ||
    c == '\u205F' || c == '\u3000'

end PhpIndex.Text

namespace PhpIndex.Chars

/-- The text before and after the first `c`, if there is one. -/
def splitFirst (c : Char) : List Char → Option (List Char × List Char)
  | [] => none
  | d :: rest =>
    if d = c then some ([], rest)
    else (splitFirst c rest).map (fun p => (d :: p.1, p.2))

theorem splitFirst_eq_some {c : Char} {s a b : List Char} (h : splitFirst c s = some (a, b)) :
    s = a ++ c :: b ∧ c ∉ a := by
  induction s generalizing a with
  | nil => simp [splitFirst] at h
  | cons d rest ih =>
    by_cases hd : d = c
    · simp only [splitFirst, hd, if_true, Option.some.injEq, Prod.mk.injEq] at h
      simp [← h.1, ← h.2, hd]
    · simp only [splitFirst, if_neg hd, Option.map_eq_some_iff, Prod.mk.injEq] at h
      obtain ⟨p, hp, rfl, rfl⟩ := h
      have := ih hp
      refine ⟨by simp [this.1], fun hc => ?_⟩
      rcases List.mem_cons.1 hc with rfl | hc
      · exact hd rfl
      · exact this.2 hc

/-- The pieces between the separators: one more than there are separators. -/
def splitAll (c : Char) : List Char → List (List Char)
  | [] => [[]]
  | d :: rest =>
    if d = c then [] :: splitAll c rest
    else
      match splitAll c rest with
      | [] => [[d]]
      | piece :: pieces => (d :: piece) :: pieces

theorem splitAll_ne_nil (c : Char) (s : List Char) : splitAll c s ≠ [] := by
  cases s with
  | nil => simp [splitAll]
  | cons d rest =>
    unfold splitAll
    split
    · simp
    · split <;> simp

section Pieces
variable {c : Char} {s piece : List Char}

theorem subset_of_mem_splitAll (h : piece ∈ splitAll c s) : piece ⊆ s := by
  induction s generalizing piece with
  | nil =>
    obtain rfl := List.mem_singleton.1 h
    exact List.Subset.refl _
  | cons d rest ih =>
    unfold splitAll at h
    split at h
    · rcases List.mem_cons.1 h with rfl | h
      · exact List.nil_subset _
      · exact List.Subset.trans (ih h) (List.subset_cons_self d rest)
    · split at h
      next hnil => exact absurd hnil (splitAll_ne_nil c rest)
      next first pieces hpieces =>
        rw [hpieces] at ih
        rcases List.mem_cons.1 h with rfl | h
        · exact List.cons_subset_cons d (ih List.mem_cons_self)
        · exact List.Subset.trans (ih (List.mem_cons_of_mem first h))
            (List.subset_cons_self d rest)

theorem not_mem_of_mem_splitAll (h : piece ∈ splitAll c s) : c ∉ piece := by
  induction s generalizing piece with
  | nil =>
    obtain rfl := List.mem_singleton.1 h
    exact List.not_mem_nil
  | cons d rest ih =>
    unfold splitAll at h
    split at h
    · rcases List.mem_cons.1 h with rfl | h
      · exact List.not_mem_nil
      · exact ih h
    next hd =>
      split at h
      next hnil => exact absurd hnil (splitAll_ne_nil c rest)
      next first pieces hpieces =>
        rw [hpieces] at ih
        rcases List.mem_cons.1 h with rfl | h
        · exact fun hc => (List.mem_cons.1 hc).elim (fun heq => hd heq.symm)
            (ih List.mem_cons_self)
        · exact ih (List.mem_cons_of_mem first h)

theorem splitAll_of_not_mem (h : c ∉ s) : splitAll c s = [s] := by
  induction s with
  | nil => rfl
  | cons d rest ih =>
    have hd : d ≠ c := fun heq => h (heq ▸ List.mem_cons_self)
    rw [splitAll, if_neg hd, ih fun hmem => h (List.mem_cons_of_mem d hmem)]

theorem splitAll_append (h : c ∉ s) (rest : List Char) :
    splitAll c (s ++ c :: rest) = s :: splitAll c rest := by
  induction s with
  | nil => exact if_pos rfl
  | cons d s ih =>
    have hd : d ≠ c := fun heq => h (heq ▸ List.mem_cons_self)
    rw [List.cons_append, splitAll, if_neg hd, ih fun hmem => h (List.mem_cons_of_mem d hmem)]

theorem mem_intercalate {separator : List Char} {pieces : List (List Char)}
    (h : c ∈ separator.intercalate pieces) : c ∈ separator ∨ ∃ piece ∈ pieces, c ∈ piece := by
  induction pieces with
  | nil => exact absurd h List.not_mem_nil
  | cons piece rest ih =>
    cases rest with
    | nil =>
      rw [List.intercalate_singleton] at h
      exact .inr ⟨piece, List.mem_singleton_self _, h⟩
    | cons next rest =>
      rw [List.intercalate_cons_cons, List.mem_append, List.mem_append] at h
      rcases h with (hpiece | hseparator) | hrest
      · exact .inr ⟨piece, List.mem_cons_self, hpiece⟩
      · exact .inl hseparator
      · obtain hseparator | ⟨p, hp, hc⟩ := ih hrest
        · exact .inl hseparator
        · exact .inr ⟨p, List.mem_cons_of_mem piece hp, hc⟩

/-- The pieces of a text are found again in it. -/
theorem splitAll_intercalate {pieces : List (List Char)} (hne : pieces ≠ [])
    (h : ∀ piece ∈ pieces, c ∉ piece) : splitAll c ([c].intercalate pieces) = pieces := by
  induction pieces with
  | nil => exact absurd rfl hne
  | cons piece rest ih =>
    obtain ⟨hpiece, hrest⟩ := List.forall_mem_cons.1 h
    cases rest with
    | nil =>
      rw [List.intercalate_singleton]
      exact splitAll_of_not_mem hpiece
    | cons next rest =>
      rw [List.intercalate_cons_cons, List.append_assoc, List.singleton_append,
        splitAll_append hpiece, ih (List.cons_ne_nil _ _) hrest]

end Pieces

/-- The lines of a text: the pieces between line feeds, less a last empty one and without a
carriage return before the line feed. -/
def linesOf (s : List Char) : List (List Char) :=
  let pieces := splitAll '\n' s
  let kept := if pieces.getLast? = some [] then pieces.dropLast else pieces
  let closed := pieces.length - 1
  kept.mapIdx fun i line =>
    if i < closed && line.getLast? = some '\r' then line.dropLast else line

/-- The longest beginning that takes no more than so many bytes in UTF-8. -/
def takeBytes (n : Nat) : List Char → List Char
  | [] => []
  | c :: rest => if c.utf8Size ≤ n then c :: takeBytes (n - c.utf8Size) rest else []

end PhpIndex.Chars

namespace PhpIndex.Text

def splitFirst (c : Char) (s : String) : Option (String × String) :=
  (Chars.splitFirst c s.toList).map (fun p => (String.ofList p.1, String.ofList p.2))

def splitAll (c : Char) (s : String) : List String :=
  (Chars.splitAll c s.toList).map String.ofList

def linesOf (s : String) : List String := (Chars.linesOf s.toList).map String.ofList

/-- The part after `lead`, if the text begins with it. -/
def afterLead? (lead s : String) : Option String :=
  if lead.toList.isPrefixOf s.toList then some (String.ofList (s.toList.drop lead.length))
  else none

/-- The part before `tail`, if the text ends with it. -/
def beforeTail? (tail s : String) : Option String :=
  if tail.toList.isSuffixOf s.toList then
    some (String.ofList (s.toList.take (s.length - tail.length)))
  else none

def startsWith (lead s : String) : Bool := lead.toList.isPrefixOf s.toList

def endsWith (tail s : String) : Bool := tail.toList.isSuffixOf s.toList

def trimStart (p : Char → Bool) (s : String) : String := String.ofList (s.toList.dropWhile p)

def trimEnd (p : Char → Bool) (s : String) : String :=
  String.ofList (s.toList.reverse.dropWhile p).reverse

/-- Drops the matching characters at both ends. -/
def trimBoth (p : Char → Bool) (s : String) : String := trimEnd p (trimStart p s)

/-- Drops blank characters at both ends. -/
def trimBlank (s : String) : String := trimBoth isBlank s

/-- The part after the last `c`: the whole text if it holds none. -/
def afterLast (c : Char) (s : String) : String :=
  String.ofList (s.toList.reverse.takeWhile (· != c)).reverse

/-- The pieces between stretches of blank characters, none of them empty. -/
def words (s : String) : List String :=
  let blanksToSpace := s.toList.map (fun c => if isBlank c then ' ' else c)
  ((Chars.splitAll ' ' blanksToSpace).filter (fun w => !w.isEmpty)).map String.ofList

/-- The longest beginning that takes no more than so many bytes in UTF-8. -/
def takeBytes (n : Nat) (s : String) : String := String.ofList (Chars.takeBytes n s.toList)

/-- The text between two byte offsets, if it is made of whole characters. -/
def slice? (s : String) (start stop : Nat) : Option String :=
  if start ≤ stop ∧ stop ≤ s.utf8ByteSize then
    String.fromUTF8? (s.toUTF8.extract start stop)
  else none

/-- The ASCII letters in lower case, everything else kept. -/
def lowerAscii (s : String) : String := String.ofList (s.toList.map Char.toLower)

def joinWith (separator : String) (parts : List String) : String :=
  separator.intercalate parts

section Pieces
variable {c : Char}

theorem toList_mem_splitAll {s piece : String} (h : piece ∈ splitAll c s) :
    piece.toList ∈ Chars.splitAll c s.toList := by
  obtain ⟨chars, hchars, rfl⟩ := List.mem_map.1 h
  rwa [String.toList_ofList]

theorem splitAll_joinWith {separator : String} (hseparator : separator.toList = [c])
    {pieces : List String} (hne : pieces ≠ []) (h : ∀ piece ∈ pieces, c ∉ piece.toList) :
    splitAll c (joinWith separator pieces) = pieces := by
  rw [splitAll, joinWith, String.toList_intercalate, hseparator, Chars.splitAll_intercalate,
    List.map_map]
  · exact (List.map_congr_left fun s _ => String.ofList_toList).trans (List.map_id _)
  · exact fun hnil => hne (List.map_eq_nil_iff.1 hnil)
  · intro chars hchars
    obtain ⟨piece, hpiece, rfl⟩ := List.mem_map.1 hchars
    exact h piece hpiece

theorem mem_joinWith {separator : String} {pieces : List String}
    (h : c ∈ (joinWith separator pieces).toList) :
    c ∈ separator.toList ∨ ∃ piece ∈ pieces, c ∈ piece.toList := by
  rw [joinWith, String.toList_intercalate] at h
  refine (Chars.mem_intercalate h).imp_right ?_
  rintro ⟨chars, hchars, hc⟩
  obtain ⟨piece, hpiece, rfl⟩ := List.mem_map.1 hchars
  exact ⟨piece, hpiece, hc⟩

end Pieces

end PhpIndex.Text
