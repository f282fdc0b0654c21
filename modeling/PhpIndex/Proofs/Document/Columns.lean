import PhpIndex.Proofs.Text.Boundaries

/-!
# Lines, columns and offsets

An offset has a position, and a position has an offset. The two conversions undo each other up to
rounding: an offset inside a character stands for the start of the character, one in the line
break for the end of what the line holds, and a column inside a character for the end of it. Both
are read off the bytes as well, by cutting lines out of the text, and no cut falls into a
character.
Main statements: `ofOffset_eq_of_on`, `toOffset_eq_of_lineAt`, `cutPosition?_eq`, `cutOffset?_eq`,
`positions_round_trip`.
-/
namespace PhpIndex.Position

/-! ## Columns -/

/-- The number of UTF-16 code units. -/
def width : List Char → Nat
  | [] => 0
  | c :: rest => units c + width rest

@[simp] theorem width_cons (c : Char) (rest : List Char) :
    width (c :: rest) = units c + width rest := rfl

@[simp] theorem width_append (front back : List Char) :
    width (front ++ back) = width front + width back := by
  induction front with
  | nil => exact (Nat.zero_add _).symm
  | cons c front ih => rw [List.cons_append, width_cons, width_cons, ih, Nat.add_assoc]

theorem units_pos (c : Char) : 0 < units c := by
  unfold units
  split <;> omega

theorem units_le_utf8Size (c : Char) : units c ≤ c.utf8Size := by
  have hpos := c.utf8Size_pos
  unfold units
  split
  · exact hpos
  next hlarge =>
    unfold Char.utf8Size
    simp only [UInt32.le_iff_toNat_le]
    have hval : c.val.toNat = c.toNat := rfl
    split
    · next h => rw [hval] at h; simp at h; omega
    · split
      · omega
      · split <;> omega

/-- A line cut off where its last line breaks begin. -/
def trimmed (line : List Char) : List Char :=
  (line.reverse.dropWhile fun c => c == '\n' || c == '\r').reverse

/-- The columns at which a character of a line begins or the line ends. -/
def columns (line : List Char) : Set Nat := {k | ∃ front, front <+: line ∧ width front = k}

/-- Whether a column of a line is the first one that is not before another column. -/
structure IsNext (line : List Char) (column next : Nat) : Prop where
  mem : next ∈ columns line
  le : column ≤ next
  least : ∀ k ∈ columns line, column ≤ k → next ≤ k

theorem bytesBefore_width {front line : List Char} (h : front <+: line) :
    bytesBefore (width front) line = byteLength front := by
  induction front generalizing line with
  | nil => cases line <;> rfl
  | cons c front ih =>
    obtain ⟨back, rfl⟩ := h
    have hpos := units_pos c
    rw [width_cons, List.cons_append, bytesBefore, if_neg (by omega), Nat.add_sub_cancel_left,
      ih (List.prefix_append _ _), byteLength]

theorem bytesBefore_of_width_le {line : List Char} {column : Nat} (h : width line ≤ column) :
    bytesBefore column line = byteLength line := by
  induction line generalizing column with
  | nil => rfl
  | cons c rest ih =>
    have hpos := units_pos c
    rw [width_cons] at h
    rw [bytesBefore, if_neg (by omega), ih (by omega), byteLength]

theorem bytesBefore_le (column : Nat) (line : List Char) :
    bytesBefore column line ≤ byteLength line := by
  fun_induction bytesBefore column line with
  | case1 => exact Nat.le_refl 0
  | case2 => exact Nat.zero_le _
  | case3 column c rest h ih => exact Nat.add_le_add_left ih _

/-- A column within a line is rounded up to the end of the character that it is in. -/
theorem exists_bytesBefore (line : List Char) {column : Nat} (h : column ≤ width line) :
    ∃ front, front <+: line ∧ bytesBefore column line = byteLength front ∧
      IsNext line column (width front) := by
  induction line generalizing column with
  | nil =>
    exact ⟨[], List.nil_prefix, rfl, ⟨[], List.nil_prefix, rfl⟩, h, fun k _ _ => Nat.zero_le k⟩
  | cons c rest ih =>
    by_cases hzero : column = 0
    · refine ⟨[], List.nil_prefix, by rw [bytesBefore, if_pos hzero]; rfl,
        ⟨[], List.nil_prefix, rfl⟩, ?_, fun k _ _ => Nat.zero_le k⟩
      rw [hzero]
      exact Nat.zero_le _
    · rw [width_cons] at h
      have hshort : column - units c ≤ width rest := by omega
      obtain ⟨front, hfront, hbytes, hnext⟩ := ih hshort
      have hfront' : c :: front <+: c :: rest := (List.prefix_cons_inj c).2 hfront
      refine ⟨c :: front, hfront', ?_, ⟨_, hfront', rfl⟩, ?_, ?_⟩
      · rw [bytesBefore, if_neg hzero, hbytes, byteLength]
      · have hle := hnext.le
        rw [width_cons]
        omega
      · rintro k ⟨other, hother, rfl⟩ hk
        cases other with
        | nil => exact absurd (Nat.le_zero.1 hk) hzero
        | cons d other =>
          obtain ⟨rfl, hrest⟩ := List.cons_prefix_cons.1 hother
          rw [width_cons] at hk ⊢
          exact Nat.add_le_add_left (hnext.least _ ⟨other, hrest, rfl⟩ (by omega)) _

/-- Of two beginnings of a line the shorter one is reached at the column of the one in the
other. -/
theorem bytesBefore_width_of_isPrefix {front content line : List Char} (hfront : front <+: line)
    (hcontent : content <+: line) :
    bytesBefore (width front) content = min (byteLength front) (byteLength content) := by
  rcases List.prefix_or_prefix_of_prefix hfront hcontent with h | h
  · rw [bytesBefore_width h, Nat.min_eq_left (byteLength_le_of_isPrefix h)]
  · rw [Nat.min_eq_right (byteLength_le_of_isPrefix h), bytesBefore_of_width_le]
    obtain ⟨back, rfl⟩ := h
    simp

/-! ## Lines -/

/-- So many lines, each with its line feed. -/
inductive Lines : Nat → List Char → Prop
  | nil : Lines 0 []
  | cons {n : Nat} {body rest : List Char} (hbody : '\n' ∉ body) (hrest : Lines n rest) :
      Lines (n + 1) (body ++ '\n' :: rest)

/-- The line of a text that stands behind so many others, with its line feed if it has one. -/
structure LineAt (text : List Char) (n : Nat) (front line : List Char) : Prop where
  lines : Lines n front
  within : front ++ line <+: text
  single : Lines 1 line ∨ '\n' ∉ line ∧ front ++ line = text

/-- Whether an offset is on a line. At the end of a text it is on the last line. -/
def On (front line : List Char) (b : Nat) : Prop :=
  byteLength front ≤ b ∧ (b < byteLength front + byteLength line ∨ '\n' ∉ line)

namespace Lines
variable {n m : Nat} {front back : List Char}

theorem append (hfront : Lines n front) (hback : Lines m back) : Lines (n + m) (front ++ back) := by
  induction hfront with
  | nil => rwa [Nat.zero_add, List.nil_append]
  | cons hbody _ ih =>
    rw [Nat.add_right_comm, List.append_assoc]
    exact .cons hbody ih

theorem single {body : List Char} (hbody : '\n' ∉ body) : Lines 1 (body ++ ['\n']) :=
  .cons hbody .nil

theorem exists_of_one {line : List Char} (h : Lines 1 line) :
    ∃ body, '\n' ∉ body ∧ line = body ++ ['\n'] := by
  cases h with
  | cons hbody hrest =>
    cases hrest
    exact ⟨_, hbody, rfl⟩

theorem count (h : Lines n front) : front.count '\n' = n := by
  induction h with
  | nil => rfl
  | cons hbody _ ih => simp [List.count_append, List.count_eq_zero_of_not_mem hbody, ih]

end Lines

/-- Every beginning of a text is made of whole lines and a part of the next one. -/
theorem exists_lines (chars : List Char) :
    ∃ n front part, chars = front ++ part ∧ Lines n front ∧ '\n' ∉ part := by
  induction chars with
  | nil => exact ⟨0, [], [], rfl, .nil, List.not_mem_nil⟩
  | cons c rest ih =>
    obtain ⟨n, front, part, rfl, hlines, hpart⟩ := ih
    by_cases hc : c = '\n'
    · subst hc
      exact ⟨n + 1, '\n' :: front, part, rfl, .cons List.not_mem_nil hlines, hpart⟩
    · cases hlines with
      | nil =>
        have hlonger := List.not_mem_cons_of_ne_of_not_mem (Ne.symm hc) hpart
        exact ⟨0, [], _, rfl, .nil, hlonger⟩
      | cons hbody hrest =>
        have hlonger := List.not_mem_cons_of_ne_of_not_mem (Ne.symm hc) hbody
        exact ⟨_, _, part, rfl, .cons hlonger hrest, hpart⟩

/-- The part of a line goes on to its line feed or to the end of the text. -/
theorem exists_lineAt {text front part : List Char} {n : Nat} (hlines : Lines n front)
    (hpart : '\n' ∉ part) (hwithin : front ++ part <+: text) :
    ∃ line, LineAt text n front line ∧ part <+: line ∧
      On front line (byteLength (front ++ part)) := by
  obtain ⟨back, rfl⟩ := hwithin
  by_cases hback : '\n' ∈ back
  · obtain ⟨more, back, rfl, hmore⟩ := List.eq_append_cons_of_mem hback
    have hbody : '\n' ∉ part ++ more := List.not_mem_append hpart hmore
    refine ⟨part ++ more ++ ['\n'], ⟨hlines, ⟨back, by simp⟩, .inl (.single hbody)⟩, ?_, ?_,
      .inl ?_⟩
    · exact ⟨more ++ ['\n'], by simp⟩
    · simp
    · have hpos : 0 < byteLength (more ++ ['\n']) := byteLength_pos (by simp)
      rw [List.append_assoc, byteLength_append, byteLength_append part]
      omega
  · have hline : '\n' ∉ part ++ back := List.not_mem_append hpart hback
    refine ⟨part ++ back, ⟨hlines, ⟨[], by simp⟩, .inr ⟨hline, by simp⟩⟩, ?_, ?_, .inr hline⟩
    · exact List.prefix_append _ _
    · simp

/-- What lies in front of an offset on a line is the lines in front of it and a part of it. -/
theorem LineAt.exists_part {text front line before : List Char} {n : Nat}
    (h : LineAt text n front line) (hbefore : before <+: text)
    (hon : On front line (byteLength before)) :
    ∃ part, before = front ++ part ∧ part <+: line ∧ '\n' ∉ part := by
  have hfront : front <+: text := (List.prefix_append _ _).trans h.within
  obtain ⟨part, rfl⟩ := prefix_of_byteLength_le hfront hbefore hon.1
  rcases h.single with hone | ⟨hline, rfl⟩
  · obtain ⟨body, hbody, rfl⟩ := hone.exists_of_one
    have hlt : byteLength part < byteLength (body ++ ['\n']) := by
      rcases hon.2 with hlt | hline
      · rw [byteLength_append] at hlt
        omega
      · exact absurd (List.mem_append_right body List.mem_cons_self) hline
    have hshort := prefix_of_byteLength_le hbefore h.within (by
      rw [byteLength_append, byteLength_append]
      omega)
    have hpart := (List.prefix_append_right_inj front).1 hshort
    refine ⟨part, rfl, hpart, ?_⟩
    rcases List.prefix_concat_iff.1 hpart with rfl | hpart
    · exact absurd hlt (Nat.lt_irrefl _)
    · exact fun hmem => hbody (hpart.subset hmem)
  · have hpart := (List.prefix_append_right_inj front).1 hbefore
    exact ⟨part, rfl, hpart, fun hmem => hline (hpart.subset hmem)⟩

theorem trimmed_isPrefix (line : List Char) : trimmed line <+: line := by
  obtain ⟨breaks, hbreaks⟩ := List.dropWhile_suffix (fun c => c == '\n' || c == '\r')
    (l := line.reverse)
  refine ⟨breaks.reverse, ?_⟩
  rw [trimmed, ← List.reverse_append, hbreaks, List.reverse_reverse]

theorem trimmed_concat (body : List Char) : trimmed (body ++ ['\n']) = trimmed body := by
  simp [trimmed]

/-- A line without its line feed holds no other breaks than carriage returns. -/
theorem trimmed_of_not_mem {body : List Char} (h : '\n' ∉ body) : trimmed body = content body := by
  have hsame : ∀ chars : List Char, '\n' ∉ chars →
      chars.dropWhile (fun c => c == '\n' || c == '\r') = chars.dropWhile (· == '\r') := by
    intro chars hchars
    induction chars with
    | nil => rfl
    | cons c rest ih =>
      have hrest : '\n' ∉ rest := List.not_mem_of_not_mem_cons hchars
      have hc' : (c == '\n') = false := beq_false_of_ne (Ne.symm (List.ne_of_not_mem_cons hchars))
      rw [List.dropWhile_cons, List.dropWhile_cons, hc', Bool.false_or, ih hrest]
  rw [trimmed, content, hsame _ (by rwa [List.mem_reverse])]

/-! ## From offsets to positions -/

/-- The position behind some characters. -/
def advance (p : Nat × Nat) (chars : List Char) : Nat × Nat :=
  chars.foldl (fun p c => after p.1 p.2 c) p

theorem advance_cons (line column : Nat) (c : Char) (rest : List Char) :
    advance (line, column) (c :: rest) = advance (after line column c) rest := rfl

theorem advance_append (p : Nat × Nat) (front back : List Char) :
    advance p (front ++ back) = advance (advance p front) back := List.foldl_append

theorem reached_eq (line column n : Nat) (chars : List Char) :
    reached line column n chars = advance (line, column) (Chars.takeBytes n chars) := by
  induction chars generalizing line column n with
  | nil => rfl
  | cons c rest ih =>
    rw [reached, Chars.takeBytes]
    split
    · exact ih _ _ _
    · rfl

theorem advance_of_not_mem {part : List Char} (h : '\n' ∉ part) (line column : Nat) :
    advance (line, column) part = (line, column + width part) := by
  induction part generalizing column with
  | nil => rfl
  | cons c rest ih =>
    have hc : c ≠ '\n' := fun heq => h (heq ▸ List.mem_cons_self)
    rw [advance_cons, after, if_neg hc, ih fun hmem => h (List.mem_cons_of_mem c hmem), width_cons,
      Nat.add_assoc]

theorem Lines.advance_eq {n : Nat} {front : List Char} (h : Lines n front) (line : Nat) :
    advance (line, 0) front = (line + n, 0) := by
  induction h generalizing line with
  | nil => rfl
  | cons hbody _ ih =>
    have hfeed (column : Nat) (rest : List Char) :
        advance (line, column) ('\n' :: rest) = advance (line + 1, 0) rest := rfl
    rw [advance_append, advance_of_not_mem hbody, hfeed, ih, Nat.add_right_comm, Nat.add_assoc]

theorem advance_le (line column : Nat) (chars : List Char) :
    (advance (line, column) chars).1 ≤ line + byteLength chars ∧
      (advance (line, column) chars).2 ≤ column + byteLength chars := by
  induction chars generalizing line column with
  | nil => exact ⟨Nat.le_refl _, Nat.le_refl _⟩
  | cons c rest ih =>
    have hpos := c.utf8Size_pos
    have hunits := units_le_utf8Size c
    rw [advance_cons, after, byteLength]
    split
    · have hrest := ih (line + 1) 0
      omega
    · have hrest := ih line (column + units c)
      omega

/-- Reading on leads to later lines, or to later columns of the same line. -/
theorem le_advance (line column : Nat) (chars : List Char) :
    line < (advance (line, column) chars).1 ∨
      line = (advance (line, column) chars).1 ∧ column ≤ (advance (line, column) chars).2 := by
  induction chars generalizing line column with
  | nil => exact .inr ⟨rfl, Nat.le_refl _⟩
  | cons c rest ih =>
    rw [advance_cons, after]
    split
    · have hrest := ih (line + 1) 0
      omega
    · have hrest := ih line (column + units c)
      omega

variable {text : String}

/-- The position of an offset, as far as it is no more than words hold. -/
theorem toNat_ofOffset (hsize : text.utf8ByteSize < UInt32.size) (o : UInt32) :
    ((ofOffset text o).line.toNat, (ofOffset text o).column.toNat) =
      advance (0, 0) (Chars.takeBytes o.toNat text.toList) := by
  have hle := byteLength_le_of_isPrefix (takeBytes_isPrefix o.toNat text.toList)
  rw [byteLength_toList] at hle
  obtain ⟨hline, hcolumn⟩ := advance_le 0 0 (Chars.takeBytes o.toNat text.toList)
  have hof : ofOffset text o =
      ⟨.ofNat (advance (0, 0) (Chars.takeBytes o.toNat text.toList)).1,
        .ofNat (advance (0, 0) (Chars.takeBytes o.toNat text.toList)).2⟩ := by
    rw [← reached_eq]
    rfl
  rw [hof]
  -- Neither number is greater than the size of the text, so neither wraps around.
  refine Prod.ext ?_ ?_
  · exact UInt32.toNat_ofNat_of_lt' (by omega)
  · exact UInt32.toNat_ofNat_of_lt' (by omega)

/-- An offset is on the line on which the last boundary in front of it is, behind a part of it. -/
theorem ofOffset_eq_of_on (hsize : text.utf8ByteSize < UInt32.size) {o : UInt32} {n : Nat}
    {front line : List Char} (hline : LineAt text.toList n front line)
    (hon : On front line (byteLength (Chars.takeBytes o.toNat text.toList))) :
    ∃ part, Chars.takeBytes o.toNat text.toList = front ++ part ∧ part <+: line ∧
      (ofOffset text o).line.toNat = n ∧ (ofOffset text o).column.toNat = width part := by
  obtain ⟨part, heq, hprefix, hpart⟩ := hline.exists_part (takeBytes_isPrefix _ _) hon
  have hposition := toNat_ofOffset hsize o
  rw [heq, advance_append, hline.lines.advance_eq, advance_of_not_mem hpart, Nat.zero_add,
    Nat.zero_add] at hposition
  exact ⟨part, heq, hprefix, congrArg Prod.fst hposition, congrArg Prod.snd hposition⟩

/-! ## From positions to offsets -/

/-- The search goes past whole lines. -/
theorem Lines.find_eq {n : Nat} {front : List Char} (h : Lines n front) (column start : Nat)
    (m : Nat) (rest : List Char) :
    find column start (n + m) (Chars.splitAll '\n' (front ++ rest)) =
      find column (start + byteLength front) m (Chars.splitAll '\n' rest) := by
  induction h generalizing start with
  | nil => simp [byteLength]
  | @cons n body front hbody _ ih =>
    have hlength : byteLength (body ++ '\n' :: front) = byteLength body + 1 + byteLength front := by
      rw [byteLength_append, byteLength, Nat.add_assoc]
      rfl
    rw [List.append_assoc, List.cons_append, Chars.splitAll_append hbody, Nat.add_right_comm, find,
      ih, hlength]
    congr 1
    omega

theorem LineAt.byteLength_le {chars front line : List Char} {n : Nat}
    (h : LineAt chars n front line) :
    byteLength front + byteLength line ≤ byteLength chars := by
  rw [← byteLength_append]
  exact byteLength_le_of_isPrefix h.within

/-- The search for a position ends on its line. -/
theorem LineAt.find_eq {n : Nat} {front line : List Char} (h : LineAt text.toList n front line)
    (column : Nat) :
    find column 0 n (Chars.splitAll '\n' text.toList) =
      some (byteLength front + bytesBefore column (trimmed line)) := by
  obtain ⟨back, hback⟩ := h.within
  rw [← hback, List.append_assoc, ← Nat.add_zero n, h.lines.find_eq, Nat.zero_add]
  rcases h.single with hone | ⟨hbody, hlast⟩
  · obtain ⟨body, hbody, rfl⟩ := hone.exists_of_one
    rw [List.append_assoc, List.singleton_append, Chars.splitAll_append hbody, find, trimmed_concat,
      trimmed_of_not_mem hbody]
  · rw [hlast] at hback
    rw [List.append_right_eq_self.1 hback, List.append_nil, Chars.splitAll_of_not_mem hbody, find,
      trimmed_of_not_mem hbody]

/-- The offset of a position on a line, as far as it is no more than a word holds. -/
theorem toOffset_eq_of_lineAt (hsize : text.utf8ByteSize < UInt32.size) {p : Position}
    {front line : List Char} (hline : LineAt text.toList p.line.toNat front line) :
    (toOffset text p).toNat = byteLength front + bytesBefore p.column.toNat (trimmed line) := by
  have hle : byteLength front + bytesBefore p.column.toNat (trimmed line) ≤ text.utf8ByteSize := by
    have hline := hline.byteLength_le
    have hbytes := bytesBefore_le p.column.toNat (trimmed line)
    have htrimmed := byteLength_le_of_isPrefix (trimmed_isPrefix line)
    rw [byteLength_toList] at hline
    omega
  rw [toOffset, hline.find_eq]
  exact UInt32.toNat_ofNat_of_lt' (by simpa using Nat.lt_of_le_of_lt hle hsize)

/-- A line that the text does not have is not found. -/
theorem find_eq_none {column start n : Nat} {lines : List (List Char)} (h : lines.length ≤ n) :
    find column start n lines = none := by
  induction lines generalizing start n with
  | nil => cases n <;> rfl
  | cons line rest ih =>
    cases n with
    | zero => cases h
    | succ n => exact ih (Nat.le_of_succ_le_succ h)

theorem length_splitAll (chars : List Char) :
    (Chars.splitAll '\n' chars).length = chars.count '\n' + 1 := by
  induction chars with
  | nil => rfl
  | cons c rest ih =>
    rw [Chars.splitAll, List.count_cons]
    split
    next hc => simp [hc, ih]
    next hc =>
      obtain ⟨piece, pieces, heq⟩ := List.exists_cons_of_ne_nil (Chars.splitAll_ne_nil '\n' rest)
      rw [heq] at ih ⊢
      simpa [hc] using ih

/-- A text with so many line feeds has the line behind them. -/
theorem exists_lineAt_of_le_count {chars : List Char} {n : Nat} (h : n ≤ chars.count '\n') :
    ∃ front line, LineAt chars n front line := by
  have hfront : ∃ front, Lines n front ∧ front <+: chars := by
    induction n with
    | zero => exact ⟨[], .nil, List.nil_prefix⟩
    | succ n ih =>
      obtain ⟨front, hlines, back, rfl⟩ := ih (by omega)
      rw [List.count_append, hlines.count] at h
      obtain ⟨body, rest, rfl, hbody⟩ :=
        List.eq_append_cons_of_mem (List.count_pos_iff.1 (show 0 < back.count '\n' by omega))
      exact ⟨front ++ (body ++ ['\n']), hlines.append (.single hbody), rest, by simp⟩
  obtain ⟨front, hlines, hprefix⟩ := hfront
  obtain ⟨line, hline, -, -⟩ := exists_lineAt hlines List.not_mem_nil (by simpa using hprefix)
  exact ⟨front, line, hline⟩

/-! ## Cutting lines out of the text -/

/-- The offsets behind the line feeds of a text that begins at `start`. -/
def breaks (start : Nat) : List Char → List Nat
  | [] => []
  | c :: rest =>
    if c = '\n' then (start + c.utf8Size) :: breaks (start + c.utf8Size) rest
    else breaks (start + c.utf8Size) rest

/-- The offsets at which the lines of a text begin. -/
def lineStarts (text : String) : List Nat := 0 :: breaks 0 text.toList

/-- The position of an offset, as the width of what is cut out of the text between the start of
its line and the last boundary in front of it. None if that is no text. -/
def cutPosition? (text : String) (o : UInt32) : Option Position :=
  let stop := floorBoundary text.toList (min o.toNat text.utf8ByteSize)
  let line := ((lineStarts text).takeWhile fun start => start ≤ stop).length - 1
  (Text.slice? text ((lineStarts text)[line]?.getD 0) stop).map fun piece =>
    ⟨.ofNat line, .ofNat (width piece.toList)⟩

/-- The offset of a position, by the line that is cut out of the text between two starts. None if
that is no text. -/
def cutOffset? (text : String) (p : Position) : Option UInt32 :=
  match (lineStarts text)[p.line.toNat]? with
  | none => some (.ofNat text.utf8ByteSize)
  | some start =>
    let stop := (lineStarts text)[p.line.toNat + 1]?.getD text.utf8ByteSize
    (Text.slice? text start stop).map fun piece =>
      .ofNat (start + bytesBefore p.column.toNat (trimmed piece.toList))

theorem breaks_of_not_mem {body : List Char} (h : '\n' ∉ body) (start : Nat) :
    breaks start body = [] := by
  induction body generalizing start with
  | nil => rfl
  | cons c rest ih =>
    rw [breaks, if_neg (List.ne_of_not_mem_cons h).symm, ih (List.not_mem_of_not_mem_cons h)]

theorem breaks_append (start : Nat) (front back : List Char) :
    breaks start (front ++ back) =
      breaks start front ++ breaks (start + byteLength front) back := by
  induction front generalizing start with
  | nil => rfl
  | cons c rest ih =>
    rw [List.cons_append, breaks, breaks, ih, byteLength, Nat.add_assoc]
    split <;> rfl

/-- The starts of whole lines and of what stands behind them. -/
theorem Lines.starts_eq {n : Nat} {front : List Char} (h : Lines n front) (start : Nat) :
    ∃ starts, starts.length = n ∧ (∀ s ∈ starts, s ≤ start + byteLength front) ∧
      start :: breaks start front = starts ++ [start + byteLength front] := by
  induction h generalizing start with
  | nil => exact ⟨[], rfl, by simp, rfl⟩
  | @cons n body rest hbody _ ih =>
    obtain ⟨starts, hlength, hle, heq⟩ := ih (start + byteLength body + ('\n').utf8Size)
    refine ⟨start :: starts, by simp [hlength], ?_, ?_⟩
    · intro s hs
      rw [byteLength_append, byteLength]
      rcases List.mem_cons.1 hs with rfl | hs
      · omega
      · have := hle s hs
        omega
    · rw [breaks_append, breaks_of_not_mem hbody, List.nil_append, breaks, if_pos rfl, heq,
        byteLength_append, byteLength, List.cons_append]
      simp only [Nat.add_assoc]

/-- The starts up to that of a line, and behind it the one of the next line if there is one. -/
theorem LineAt.lineStarts_eq {n : Nat} {front line : List Char}
    (h : LineAt text.toList n front line) :
    ∃ starts more, starts.length = n ∧ (∀ s ∈ starts, s ≤ byteLength front) ∧
      lineStarts text = starts ++ byteLength front :: more ∧
      ('\n' ∉ line ∧ front ++ line = text.toList ∧ more = [] ∨
        '\n' ∈ line ∧ more.head? = some (byteLength front + byteLength line)) := by
  obtain ⟨starts, hlength, hle, heq⟩ := h.lines.starts_eq 0
  obtain ⟨back, hback⟩ := h.within
  rw [Nat.zero_add] at hle heq
  refine ⟨starts, breaks (byteLength front) (line ++ back), hlength, hle, ?_, ?_⟩
  · rw [lineStarts, ← hback, List.append_assoc, breaks_append, Nat.zero_add, ← List.cons_append,
      heq, List.append_assoc, List.singleton_append]
  · rcases h.single with hone | ⟨hbody, hlast⟩
    · obtain ⟨body, hbody, rfl⟩ := hone.exists_of_one
      refine .inr ⟨by simp, ?_⟩
      rw [List.append_assoc, breaks_append, breaks_of_not_mem hbody, List.nil_append,
        List.singleton_append, breaks, if_pos rfl, List.head?_cons, byteLength_append, byteLength,
        byteLength, Nat.add_assoc, Nat.add_zero]
    · rw [hlast] at hback
      rw [List.append_right_eq_self.1 hback, List.append_nil, breaks_of_not_mem hbody]
      exact .inl ⟨hbody, hlast, rfl⟩

theorem exists_on (text front : List Char) (h : front <+: text) :
    ∃ n first line, LineAt text n first line ∧ On first line (byteLength front) := by
  obtain ⟨n, first, part, rfl, hlines, hpart⟩ := exists_lines front
  obtain ⟨line, hline, -, hon⟩ := exists_lineAt hlines hpart h
  exact ⟨n, first, line, hline, hon⟩

theorem floorBoundary_min (text : String) (n : Nat) :
    floorBoundary text.toList (min n text.utf8ByteSize) =
      byteLength (Chars.takeBytes n text.toList) := by
  refine (isGreatest_floorBoundary _ _).unique ?_
  obtain ⟨⟨hboundary, hle⟩, hgreatest⟩ := isGreatest_takeBytes text.toList n
  refine ⟨⟨hboundary, Nat.le_min.2 ⟨hle, ?_⟩⟩, fun k hk => hgreatest ⟨hk.1, ?_⟩⟩
  · rw [← byteLength_toList]
    exact byteLength_le_of_isPrefix (takeBytes_isPrefix _ _)
  · exact Nat.le_trans hk.2 (Nat.min_le_left _ _)

/-- The line of an offset is the last one that begins at it or in front of it. -/
theorem LineAt.takeWhile_lineStarts {n b : Nat} {front line : List Char}
    (h : LineAt text.toList n front line) (hon : On front line b) :
    ((lineStarts text).takeWhile fun start => start ≤ b).length - 1 = n := by
  obtain ⟨starts, more, hlength, hle, hstarts, hmore⟩ := h.lineStarts_eq
  have hupTo : ∀ s ∈ starts, decide (s ≤ b) = true := fun s hs =>
    decide_eq_true (Nat.le_trans (hle s hs) hon.1)
  have hnext : more.takeWhile (fun start => decide (start ≤ b)) = [] := by
    rcases hmore with ⟨-, -, rfl⟩ | ⟨hbreak, hhead⟩
    · rfl
    · obtain ⟨later, rfl⟩ := List.head?_eq_some_iff.1 hhead
      have hlt := hon.2.resolve_right (not_not_intro hbreak)
      exact List.takeWhile_cons_of_neg (by simpa using hlt)
  have hstart : (byteLength front :: more).takeWhile (fun start => decide (start ≤ b)) =
      [byteLength front] := by
    rw [List.takeWhile_cons, if_pos (decide_eq_true hon.1), hnext]
  rw [hstarts, List.takeWhile_append_of_pos hupTo, hstart, List.length_append, hlength]
  rfl

/-- A line is what lies between its start and the next one, or the end of the text. -/
theorem LineAt.getElem?_lineStarts {n : Nat} {front line : List Char}
    (h : LineAt text.toList n front line) :
    (lineStarts text)[n]? = some (byteLength front) ∧
      (lineStarts text)[n + 1]?.getD text.utf8ByteSize = byteLength front + byteLength line := by
  obtain ⟨starts, more, rfl, -, hstarts, hmore⟩ := h.lineStarts_eq
  constructor
  · simp [hstarts]
  · rcases hmore with ⟨-, hlast, rfl⟩ | ⟨-, hhead⟩
    · simp [hstarts, ← byteLength_toList, ← hlast]
    · obtain ⟨later, rfl⟩ := List.head?_eq_some_iff.1 hhead
      simp [hstarts]

/-- No cut that finds the position of an offset falls into a character. -/
theorem cutPosition?_eq (text : String) (o : UInt32) :
    cutPosition? text o = some (ofOffset text o) := by
  obtain ⟨n, front, line, hline, hon⟩ := exists_on _ _ (takeBytes_isPrefix o.toNat text.toList)
  obtain ⟨part, heq, hpart, hbody⟩ := hline.exists_part (takeBytes_isPrefix _ _) hon
  obtain ⟨back, hback⟩ := takeBytes_isPrefix o.toNat text.toList
  have hslice : Text.slice? text (byteLength front) (byteLength front + byteLength part) =
      some (String.ofList part) := Text.slice?_of_append (by rw [← heq, hback])
  have hof : ofOffset text o = ⟨.ofNat n, .ofNat (width part)⟩ := by
    have hreached := reached_eq 0 0 o.toNat text.toList
    rw [heq, advance_append, hline.lines.advance_eq, advance_of_not_mem hbody, Nat.zero_add,
      Nat.zero_add] at hreached
    rw [ofOffset, hreached]
  rw [cutPosition?, floorBoundary_min, hline.takeWhile_lineStarts hon, hline.getElem?_lineStarts.1,
    heq, byteLength_append, Option.getD_some, hslice, hof, Option.map_some, String.toList_ofList]

theorem length_lineStarts (text : String) :
    (lineStarts text).length = text.toList.count '\n' + 1 := by
  have hbreaks : ∀ (chars : List Char) (start : Nat),
      (breaks start chars).length = chars.count '\n' := by
    intro chars
    induction chars with
    | nil => exact fun _ => rfl
    | cons c rest ih =>
      intro start
      rw [breaks, List.count_cons]
      split <;> simp_all
  rw [lineStarts, List.length_cons, hbreaks]

/-- No cut that finds the offset of a position falls into a character. -/
theorem cutOffset?_eq (text : String) (p : Position) :
    cutOffset? text p = some (toOffset text p) := by
  by_cases hline : p.line.toNat ≤ text.toList.count '\n'
  · obtain ⟨front, line, hline⟩ := exists_lineAt_of_le_count hline
    obtain ⟨hstart, hstop⟩ := hline.getElem?_lineStarts
    obtain ⟨back, hback⟩ := hline.within
    rw [cutOffset?, hstart]
    simp only [hstop, Text.slice?_of_append hback.symm, Option.map_some, String.toList_ofList,
      toOffset, hline.find_eq, Option.getD_some]
  · have hstarts : (lineStarts text)[p.line.toNat]? = none := by
      rw [List.getElem?_eq_none_iff, length_lineStarts]
      omega
    have hfind : find p.column.toNat 0 p.line.toNat (Chars.splitAll '\n' text.toList) = none :=
      find_eq_none (by rw [length_splitAll]; omega)
    rw [cutOffset?, hstarts, toOffset]
    simp only [hfind, Option.getD_none]

/-! ## There and back -/

/-- The offset of the position of an offset is the last boundary in front of it, or the end of
what its line holds if that is in front of it. -/
theorem toOffset_ofOffset (hsize : text.utf8ByteSize < UInt32.size) (o : UInt32) :
    ∃ b n front line,
      IsGreatest {k | isBoundary text.toList k = true ∧ k ≤ min o.toNat text.utf8ByteSize} b ∧
      LineAt text.toList n front line ∧ On front line b ∧
      (toOffset text (ofOffset text o)).toNat =
        min b (byteLength front + byteLength (trimmed line)) := by
  obtain ⟨n, front, line, hline, hon⟩ := exists_on _ _ (takeBytes_isPrefix o.toNat text.toList)
  obtain ⟨part, heq, hpart, hn, hcolumn⟩ := ofOffset_eq_of_on hsize hline hon
  refine ⟨byteLength (Chars.takeBytes o.toNat text.toList), n, front, line, ?_, hline, hon, ?_⟩
  · rw [← floorBoundary_min]
    exact isGreatest_floorBoundary _ _
  · rw [toOffset_eq_of_lineAt hsize (hn ▸ hline), hcolumn,
      bytesBefore_width_of_isPrefix hpart (trimmed_isPrefix line), heq, byteLength_append,
      Nat.add_min_add_left]

theorem LineAt.trimmed_break_free {chars front line : List Char} {n : Nat}
    (h : LineAt chars n front line) : '\n' ∉ trimmed line := by
  rcases h.single with hone | ⟨hline, -⟩
  · obtain ⟨body, hbody, rfl⟩ := hone.exists_of_one
    rw [trimmed_concat]
    exact fun hmem => hbody ((trimmed_isPrefix body).subset hmem)
  · exact fun hmem => hline ((trimmed_isPrefix line).subset hmem)

/-- A position on a line leads back to the beginning of the line that its offset is behind. -/
theorem ofOffset_toOffset_eq (hsize : text.utf8ByteSize < UInt32.size) {p : Position}
    {front line part : List Char} (hline : LineAt text.toList p.line.toNat front line)
    (hpart : part <+: trimmed line)
    (hbytes : bytesBefore p.column.toNat (trimmed line) = byteLength part) :
    (ofOffset text (toOffset text p)).line = p.line ∧
      (ofOffset text (toOffset text p)).column.toNat = width part := by
  have hwhole : front ++ part <+: front ++ line :=
    (List.prefix_append_right_inj front).2 (hpart.trans (trimmed_isPrefix line))
  have hwithin := hwhole.trans hline.within
  have hbody : '\n' ∉ part := fun hmem => hline.trimmed_break_free (hpart.subset hmem)
  have hback := toNat_ofOffset hsize (toOffset text p)
  rw [toOffset_eq_of_lineAt hsize hline, hbytes, ← byteLength_append, takeBytes_byteLength hwithin,
    advance_append, hline.lines.advance_eq, advance_of_not_mem hbody, Nat.zero_add,
    Nat.zero_add] at hback
  exact ⟨UInt32.toNat_inj.1 (congrArg Prod.fst hback), congrArg Prod.snd hback⟩

/-- The position of the offset of a position is on the same line, at the next column at which a
character begins or the line ends, and at the end of the line for a column behind that. -/
theorem ofOffset_toOffset (hsize : text.utf8ByteSize < UInt32.size) {p : Position}
    {front line : List Char} (hline : LineAt text.toList p.line.toNat front line) :
    (ofOffset text (toOffset text p)).line = p.line ∧
      if p.column.toNat ≤ width (trimmed line) then
        IsNext (trimmed line) p.column.toNat (ofOffset text (toOffset text p)).column.toNat
      else (ofOffset text (toOffset text p)).column.toNat = width (trimmed line) := by
  split
  next hle =>
    obtain ⟨part, hpart, hbytes, hleast⟩ := exists_bytesBefore (trimmed line) hle
    obtain ⟨hsame, hcolumn⟩ := ofOffset_toOffset_eq hsize hline hpart hbytes
    exact ⟨hsame, hcolumn ▸ hleast⟩
  next hlt =>
    refine ofOffset_toOffset_eq hsize hline (List.prefix_refl _) (bytesBefore_of_width_le ?_)
    exact Nat.le_of_not_le hlt

/-- Later offsets have later positions. -/
theorem ofOffset_le (hsize : text.utf8ByteSize < UInt32.size) {o later : UInt32} (h : o ≤ later) :
    (ofOffset text o).line < (ofOffset text later).line ∨
      (ofOffset text o).line = (ofOffset text later).line ∧
        (ofOffset text o).column ≤ (ofOffset text later).column := by
  have hprefix : Chars.takeBytes o.toNat text.toList <+: Chars.takeBytes later.toNat text.toList :=
    prefix_takeBytes (takeBytes_isPrefix _ _)
      (Nat.le_trans (byteLength_takeBytes_le _ _) (UInt32.le_iff_toNat_le.1 h))
  obtain ⟨between, hbetween⟩ := hprefix
  have hearlier := toNat_ofOffset hsize o
  have hlater := toNat_ofOffset hsize later
  rw [← hbetween, advance_append, ← hearlier] at hlater
  have hstep := le_advance (ofOffset text o).line.toNat (ofOffset text o).column.toNat between
  rw [← hlater] at hstep
  simpa only [UInt32.lt_iff_toNat_lt, UInt32.le_iff_toNat_le, UInt32.toNat_inj] using hstep

/-- For a text that is shorter than offsets can be: an offset leads by its position to the last
boundary in front of it, or to the end of what its line holds; a position on a line leads by its
offset to that line and the next column at which a character begins or the line ends; positions
are in the order of their offsets; and both are found by cutting the text between characters. -/
theorem positions_round_trip (text : String) (hsize : text.utf8ByteSize < UInt32.size) :
    (∀ o : UInt32, ∃ b n front line,
      IsGreatest {k | isBoundary text.toList k = true ∧ k ≤ min o.toNat text.utf8ByteSize} b ∧
      LineAt text.toList n front line ∧ On front line b ∧
      (toOffset text (ofOffset text o)).toNat =
        min b (byteLength front + byteLength (trimmed line))) ∧
    (∀ p : Position, p.line.toNat ≤ text.toList.count '\n' → ∃ front line,
      LineAt text.toList p.line.toNat front line ∧
      (ofOffset text (toOffset text p)).line = p.line ∧
      if p.column.toNat ≤ width (trimmed line) then
        IsNext (trimmed line) p.column.toNat (ofOffset text (toOffset text p)).column.toNat
      else (ofOffset text (toOffset text p)).column.toNat = width (trimmed line)) ∧
    (∀ o later : UInt32, o ≤ later →
      (ofOffset text o).line < (ofOffset text later).line ∨
        (ofOffset text o).line = (ofOffset text later).line ∧
          (ofOffset text o).column ≤ (ofOffset text later).column) ∧
    (∀ o, cutPosition? text o = some (ofOffset text o)) ∧
      ∀ p, cutOffset? text p = some (toOffset text p) := by
  refine ⟨toOffset_ofOffset hsize, ?_, fun o later => ofOffset_le hsize, cutPosition?_eq text,
    cutOffset?_eq text⟩
  intro p hp
  obtain ⟨front, line, hline⟩ := exists_lineAt_of_le_count hp
  exact ⟨front, line, hline, ofOffset_toOffset hsize hline⟩

/-- A line feed is on the line that it ends, behind what that line holds, and a column inside a
surrogate pair is rounded up. -/
theorem positions_round_trip_surrogates :
    "é\r\n😀".utf8ByteSize < UInt32.size ∧
      (∃ b n front line,
        IsGreatest {k | isBoundary "é\r\n😀".toList k = true ∧
          k ≤ min (3 : UInt32).toNat "é\r\n😀".utf8ByteSize} b ∧
        LineAt "é\r\n😀".toList n front line ∧ On front line b ∧
        (toOffset "é\r\n😀" (ofOffset "é\r\n😀" 3)).toNat =
          min b (byteLength front + byteLength (trimmed line))) ∧
      toOffset "é\r\n😀" (ofOffset "é\r\n😀" 3) = 2 ∧
      (ofOffset "é\r\n😀" (toOffset "é\r\n😀" ⟨1, 1⟩)).line = 1 ∧
      (ofOffset "é\r\n😀" (toOffset "é\r\n😀" ⟨1, 1⟩)).column = 2 := by
  have hsize : "é\r\n😀".utf8ByteSize < UInt32.size := by decide
  exact ⟨hsize, (positions_round_trip _ hsize).1 3, by decide, by decide, by decide⟩

end PhpIndex.Position
