/-!
# Ordered maps

A finite map kept as one list in strictly ascending key order, so that two maps with the same
entries are equal, enumeration has one order, and a range of keys is a contiguous stretch of the
list. The order of the keys is a field of the type, hence every operation keeps it.
Main statements: what `get?` answers after `insert`, `erase` and `filter`.
-/
namespace PhpIndex

/-- Entries in strictly ascending order of their keys. -/
structure OrderedMap (κ ν : Type) [Ord κ] where
  entries : List (κ × ν)
  ascending : entries.Pairwise (fun a b => compare a.1 b.1 = .lt)

namespace OrderedMap
variable {κ ν : Type} [Ord κ]

instance [DecidableEq κ] [DecidableEq ν] : DecidableEq (OrderedMap κ ν) := fun a b =>
  if h : a.entries = b.entries then
    isTrue (by cases a; cases b; cases h; rfl)
  else
    isFalse (fun e => h (congrArg entries e))

@[ext] theorem ext_entries {a b : OrderedMap κ ν} (h : a.entries = b.entries) : a = b := by
  cases a; cases b; cases h; rfl

def empty : OrderedMap κ ν := ⟨[], .nil⟩

instance : Inhabited (OrderedMap κ ν) := ⟨empty⟩
instance : EmptyCollection (OrderedMap κ ν) := ⟨empty⟩

def size (m : OrderedMap κ ν) : Nat := m.entries.length

def isEmpty (m : OrderedMap κ ν) : Bool := m.entries.isEmpty

def keys (m : OrderedMap κ ν) : List κ := m.entries.map Prod.fst

/-- The value under the key, by a walk that stops at the first key not below it. -/
def lookup (k : κ) : List (κ × ν) → Option ν
  | [] => none
  | (k', v) :: rest =>
    match compare k k' with
    | .lt => none
    | .eq => some v
    | .gt => lookup k rest

def get? (m : OrderedMap κ ν) (k : κ) : Option ν := lookup k m.entries

def contains (m : OrderedMap κ ν) (k : κ) : Bool := (m.get? k).isSome

/-- Places the pair in order, in place of an entry with an equal key. -/
def insertEntry (k : κ) (v : ν) : List (κ × ν) → List (κ × ν)
  | [] => [(k, v)]
  | (k', v') :: rest =>
    match compare k k' with
    | .lt => (k, v) :: (k', v') :: rest
    | .eq => (k, v) :: rest
    | .gt => (k', v') :: insertEntry k v rest

theorem mem_insertEntry {k : κ} {v : ν} {e : κ × ν} {l : List (κ × ν)}
    (h : e ∈ insertEntry k v l) : e = (k, v) ∨ e ∈ l := by
  induction l with
  | nil => exact Or.inl (by simpa [insertEntry] using h)
  | cons a rest ih =>
    unfold insertEntry at h
    split at h
    · simpa using h
    · rcases List.mem_cons.1 h with h | h
      · exact Or.inl h
      · exact Or.inr (List.mem_cons_of_mem _ h)
    · rcases List.mem_cons.1 h with h | h
      · exact Or.inr (h ▸ List.mem_cons_self)
      · exact (ih h).imp id (List.mem_cons_of_mem _)

theorem ascending_insertEntry [Std.TransOrd κ] (k : κ) (v : ν) {l : List (κ × ν)}
    (h : l.Pairwise (fun a b => compare a.1 b.1 = .lt)) :
    (insertEntry k v l).Pairwise (fun a b => compare a.1 b.1 = .lt) := by
  induction l with
  | nil => simp [insertEntry]
  | cons a rest ih =>
    have hrest := List.pairwise_cons.1 h
    unfold insertEntry
    split
    next hlt =>
      refine List.pairwise_cons.2 ⟨fun b hb => ?_, h⟩
      rcases List.mem_cons.1 hb with rfl | hb
      · exact hlt
      · exact Std.TransCmp.lt_trans hlt (hrest.1 b hb)
    next heq =>
      exact List.pairwise_cons.2
        ⟨fun b hb => Std.TransCmp.lt_of_eq_of_lt heq (hrest.1 b hb), hrest.2⟩
    next hgt =>
      refine List.pairwise_cons.2 ⟨fun b hb => ?_, ih hrest.2⟩
      rcases mem_insertEntry hb with rfl | hb
      · exact Std.OrientedCmp.lt_of_gt hgt
      · exact hrest.1 b hb

def insert [Std.TransOrd κ] (m : OrderedMap κ ν) (k : κ) (v : ν) : OrderedMap κ ν :=
  ⟨insertEntry k v m.entries, ascending_insertEntry k v m.ascending⟩

/-- Keeps the entries that satisfy the test. -/
def filter (p : κ → ν → Bool) (m : OrderedMap κ ν) : OrderedMap κ ν :=
  ⟨m.entries.filter (fun e => p e.1 e.2), m.ascending.filter _⟩

def erase (m : OrderedMap κ ν) (k : κ) : OrderedMap κ ν :=
  m.filter (fun k' _ => compare k k' != .eq)

/-- The last of several pairs with one key wins. -/
def ofList [Std.TransOrd κ] (pairs : List (κ × ν)) : OrderedMap κ ν :=
  pairs.foldl (fun m e => m.insert e.1 e.2) empty

/-- The entries from the first key not below `start` on. -/
def startingAt (m : OrderedMap κ ν) (start : κ) : List (κ × ν) :=
  m.entries.dropWhile (fun e => compare e.1 start == .lt)

theorem lookup_insertEntry [Std.TransOrd κ] [Std.LawfulEqOrd κ] [DecidableEq κ]
    (k : κ) (v : ν) (j : κ) {l : List (κ × ν)}
    (h : l.Pairwise (fun a b => compare a.1 b.1 = .lt)) :
    lookup j (insertEntry k v l) = if j = k then some v else lookup j l := by
  induction l with
  | nil =>
    by_cases hjk : j = k
    · subst hjk; simp [insertEntry, lookup, Std.ReflCmp.compare_self]
    · have : compare j k ≠ .eq := fun e => hjk (Std.LawfulEqOrd.eq_of_compare e)
      simp only [insertEntry, lookup, if_neg hjk]
      split <;> simp_all
  | cons a rest ih =>
    have hrest := List.pairwise_cons.1 h
    have ih := ih hrest.2
    by_cases hjk : j = k
    · subst hjk
      simp only [insertEntry, if_true]
      split <;> simp_all [lookup, Std.ReflCmp.compare_self]
    · have hne : compare j k ≠ .eq := fun e => hjk (Std.LawfulEqOrd.eq_of_compare e)
      simp only [if_neg hjk] at ih ⊢
      unfold insertEntry
      split
      next hlt =>
        rw [lookup.eq_def]
        simp only
        split
        next hj => simp [lookup, Std.TransCmp.lt_trans hj hlt]
        next hj => exact absurd hj hne
        next => rfl
      next heq =>
        have := Std.LawfulEqOrd.eq_of_compare heq
        subst this
        simp only [lookup]
        split <;> simp_all
      next hgt => simp only [lookup, ih]

/-- The written key answers the written value, every other key what it answered before. -/
theorem get?_insert [Std.TransOrd κ] [Std.LawfulEqOrd κ] [DecidableEq κ]
    (m : OrderedMap κ ν) (k : κ) (v : ν) (j : κ) :
    (m.insert k v).get? j = if j = k then some v else m.get? j :=
  lookup_insertEntry k v j m.ascending

@[simp] theorem get?_empty (k : κ) : (empty : OrderedMap κ ν).get? k = none := rfl

theorem mem_filter_entries (p : κ → ν → Bool) (m : OrderedMap κ ν) (e : κ × ν) :
    e ∈ (m.filter p).entries ↔ e ∈ m.entries ∧ p e.1 e.2 = true := List.mem_filter

theorem mem_entries_of_lookup [Std.LawfulEqOrd κ] {k : κ} {v : ν} {l : List (κ × ν)}
    (h : lookup k l = some v) : (k, v) ∈ l := by
  induction l with
  | nil => simp [lookup] at h
  | cons a rest ih =>
    unfold lookup at h
    split at h
    · simp at h
    next he =>
      have := Std.LawfulEqOrd.eq_of_compare he
      exact List.mem_cons.2 (Or.inl (by cases h; subst this; rfl))
    · exact List.mem_cons_of_mem _ (ih h)

theorem lookup_of_mem_entries [Std.TransOrd κ] {k : κ} {v : ν} {l : List (κ × ν)}
    (h : l.Pairwise (fun a b => compare a.1 b.1 = .lt)) (hm : (k, v) ∈ l) :
    lookup k l = some v := by
  induction l with
  | nil => simp at hm
  | cons a rest ih =>
    have hrest := List.pairwise_cons.1 h
    rcases List.mem_cons.1 hm with rfl | hm
    · simp [lookup, Std.ReflCmp.compare_self]
    · have hlt := Std.OrientedCmp.gt_of_lt (hrest.1 _ hm)
      simp only [lookup, hlt]
      exact ih hrest.2 hm

theorem get?_eq_some_iff [Std.TransOrd κ] [Std.LawfulEqOrd κ] (m : OrderedMap κ ν) (k : κ)
    (v : ν) : m.get? k = some v ↔ (k, v) ∈ m.entries :=
  ⟨mem_entries_of_lookup, lookup_of_mem_entries m.ascending⟩

end OrderedMap
end PhpIndex
