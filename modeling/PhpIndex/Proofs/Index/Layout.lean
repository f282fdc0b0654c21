import PhpIndex.Index.Basic
import PhpIndex.Proofs.Store.Keys
import PhpIndex.Proofs.Store.Rows
import Mathlib.Data.List.Nodup

/-!
# Layout of the index

Every table of the index is a part of one store, and every key in it names the document that it
belongs to. Which document that is can be read off the key alone, as long as no text in it holds
a zero character.
Main statements: `IndexPart.key_prefix_iff`, `KeyOf.unique`.
-/
namespace PhpIndex

/-- The tables of the index. -/
inductive IndexPart where
  | declarations (kind : TableKind)
  | names (kind : TableKind)
  | words (kind : TableKind)
  | references
  | scopes
  | documents
  deriving DecidableEq

namespace IndexPart

def all : List IndexPart :=
  TableKind.all.map declarations ++ TableKind.all.map names ++ TableKind.all.map words ++
    [references, scopes, documents]

theorem mem_all (p : IndexPart) : p ∈ all := by
  cases p with
  | declarations kind => cases kind <;> decide
  | names kind => cases kind <;> decide
  | words kind => cases kind <;> decide
  | references => decide
  | scopes => decide
  | documents => decide

def table : IndexPart → Table
  | declarations kind => (KindTables.of kind).declarations.table
  | names kind => (KindTables.of kind).names.table
  | words kind => (KindTables.of kind).words.table
  | references => referenceTable.table
  | scopes => scopeTable.table
  | documents => documentTable.table

/-- The name of the table and its version. -/
def label : IndexPart → String
  | declarations kind => kind.name ++ "@1"
  | names kind => kind.name ++ "_name@1"
  | words kind => kind.name ++ "_completion@1"
  | references => "reference@1"
  | scopes => "scope_var@1"
  | documents => "document@1"

theorem lead_table (p : IndexPart) : p.table.lead = Bytes.ofText p.label ++ [0] := by
  cases p with
  | declarations kind => cases kind <;> rfl
  | names kind => cases kind <;> rfl
  | words kind => cases kind <;> rfl
  | references => rfl
  | scopes => rfl
  | documents => rfl

theorem nulFree_label (p : IndexPart) : NulFree p.label := by
  have h : ∀ p ∈ all, NulFree p.label := by decide
  exact h p (mem_all p)

theorem label_inj {p q : IndexPart} (h : p.label = q.label) : p = q := by
  have hnodup : (all.map label).Nodup := by decide
  exact List.inj_on_of_nodup_map hnodup (mem_all p) (mem_all q) h

theorem key_table (p : IndexPart) (k : Bytes) :
    p.table.key k = Bytes.ofText p.label ++ 0 :: k := by
  rw [Table.key, lead_table, List.append_assoc, List.singleton_append]

/-- Keys of different tables never begin each other. -/
theorem key_prefix_iff {p q : IndexPart} {a b : Bytes} :
    p.table.key a <+: q.table.key b ↔ p = q ∧ a <+: b := by
  refine ⟨fun h => ?_, ?_⟩
  · rw [key_table, key_table] at h
    obtain ⟨hlabel, hrest⟩ := cut_separator (Bytes.zero_not_mem p.nulFree_label)
      (Bytes.zero_not_mem q.nulFree_label) h
    exact ⟨label_inj (Bytes.ofText_inj hlabel), hrest⟩
  · rintro ⟨rfl, h⟩
    exact List.prefix_append_right_inj _ |>.2 h

theorem key_inj {p q : IndexPart} {a b : Bytes} (h : p.table.key a = q.table.key b) :
    p = q ∧ a = b := by
  have hbegins : p.table.key a <+: q.table.key b := h ▸ List.prefix_refl _
  obtain ⟨rfl, -⟩ := key_prefix_iff.1 hbegins
  exact ⟨rfl, List.append_cancel_left h⟩

theorem touches_deleteAll (p : IndexPart) {lead k : Bytes} (h : lead <+: k) :
    (Change.deleteAll (p.table.key lead)).Touches (p.table.key k) :=
  key_prefix_iff.2 ⟨rfl, h⟩

/-- A scan of a table visits its rows whose keys are led by the text in question. -/
theorem mem_scan {rows : Rows} {p : IndexPart} {lead : Bytes} {row : Row} :
    row ∈ rows.scan (p.table.key lead) ↔
      ∃ k, lead <+: k ∧ row.1 = p.table.key k ∧ rows.get? (p.table.key k) = some row.2 := by
  obtain ⟨key, value⟩ := row
  rw [Rows.mem_scan]
  constructor
  · rintro ⟨hget, rest, rfl⟩
    have hkey : p.table.key lead ++ rest = p.table.key (lead ++ rest) := List.append_assoc _ _ _
    exact ⟨lead ++ rest, List.prefix_append lead rest, hkey, hkey ▸ hget⟩
  · rintro ⟨k, hk, rfl, hget⟩
    exact ⟨hget, key_prefix_iff.2 ⟨rfl, hk⟩⟩

/-- The keys of a document in a table. -/
def HasKey (uri : String) : IndexPart → Bytes → Prop
  | declarations _, k => ∃ name, k = joinKey [uri, name]
  | names _, k => ∃ name, NulFree name ∧ k = joinKey [name, uri]
  | words _, k => ∃ scope word name, NulFree scope ∧ NulFree word ∧
      k = CompletionIndex.key scope word uri name
  | references, k => ∃ range number, k = RangeIndex.key uri range number
  | scopes, k => ∃ range number, k = RangeIndex.key uri range number
  | documents, k => k = Bytes.ofText uri

theorem nulFree_append {s t : String} (hs : NulFree s) (ht : NulFree t) : NulFree (s ++ t) := by
  unfold NulFree at *
  rw [String.toList_append, List.mem_append]
  exact fun h => h.elim hs ht

theorem wordKey_zero_not_mem {scope word : String} (hs : NulFree scope) (hw : NulFree word) :
    (0 : UInt8) ∉ CompletionIndex.wordKey scope word :=
  Bytes.zero_not_mem (nulFree_append (nulFree_append hs (by decide)) hw)

theorem completionKey_eq (scope word uri name : String) :
    CompletionIndex.key scope word uri name =
      CompletionIndex.wordKey scope word ++ 0 :: (Bytes.ofText uri ++ 0 :: Bytes.ofText name) := by
  simp [CompletionIndex.key]

theorem rangeKey_eq {uri : String} (h : NulFree uri) (range : Range) (number : UInt32) :
    ∃ rest, RangeIndex.key uri range number = Bytes.ofText uri ++ 0 :: rest := by
  simp only [RangeIndex.key, Key.ofText_of_nulFree h, List.append_assoc, List.cons_append]
  exact ⟨_, rfl⟩

theorem ofText_prefix_key (uri : String) (range : Range) (number : UInt32) :
    Key.ofText uri <+: RangeIndex.key uri range number := by
  simp only [RangeIndex.key, List.append_assoc]
  exact List.prefix_append _ _

theorem HasKey.unique {uri uri' : String} (hu : NulFree uri) (hu' : NulFree uri') {p : IndexPart}
    {k : Bytes} (h : p.HasKey uri k) (h' : p.HasKey uri' k) : uri = uri' := by
  have hz := Bytes.zero_not_mem hu
  have hz' := Bytes.zero_not_mem hu'
  have huri {a b : Bytes} (heq : Bytes.ofText uri ++ 0 :: a = Bytes.ofText uri' ++ 0 :: b) :
      uri = uri' := Bytes.ofText_inj (cut_separator_eq hz hz' heq).1
  have hrange {a b : Range} {i j : UInt32}
      (heq : RangeIndex.key uri a i = RangeIndex.key uri' b j) : uri = uri' := by
    obtain ⟨x, hx⟩ := rangeKey_eq hu a i
    obtain ⟨y, hy⟩ := rangeKey_eq hu' b j
    rw [hx, hy] at heq
    exact huri heq
  cases p with
  | declarations kind =>
    obtain ⟨name, rfl⟩ := h
    obtain ⟨name', heq⟩ := h'
    rw [joinKey_pair, joinKey_pair] at heq
    exact huri heq
  | names kind =>
    obtain ⟨name, hname, rfl⟩ := h
    obtain ⟨name', hname', heq⟩ := h'
    rw [joinKey_pair, joinKey_pair] at heq
    exact Bytes.ofText_inj
      (cut_separator_eq (Bytes.zero_not_mem hname) (Bytes.zero_not_mem hname') heq).2
  | words kind =>
    obtain ⟨scope, word, name, hs, hw, rfl⟩ := h
    obtain ⟨scope', word', name', hs', hw', heq⟩ := h'
    rw [completionKey_eq, completionKey_eq] at heq
    exact huri (cut_separator_eq (wordKey_zero_not_mem hs hw) (wordKey_zero_not_mem hs' hw') heq).2
  | references =>
    obtain ⟨a, i, rfl⟩ := h
    obtain ⟨b, j, heq⟩ := h'
    exact hrange heq
  | scopes =>
    obtain ⟨a, i, rfl⟩ := h
    obtain ⟨b, j, heq⟩ := h'
    exact hrange heq
  | documents => exact Bytes.ofText_inj (h.symm.trans h')

end IndexPart

/-- Whether the key in the store belongs to the document. -/
def KeyOf (uri : String) (key : Bytes) : Prop :=
  ∃ (p : IndexPart) (k : Bytes), key = p.table.key k ∧ p.HasKey uri k

/-- A key belongs to one document only. -/
theorem KeyOf.unique {uri uri' : String} (hu : NulFree uri) (hu' : NulFree uri') {key : Bytes}
    (h : KeyOf uri key) (h' : KeyOf uri' key) : uri = uri' := by
  obtain ⟨p, k, rfl, hk⟩ := h
  obtain ⟨q, j, heq, hj⟩ := h'
  obtain ⟨rfl, rfl⟩ := IndexPart.key_inj heq
  exact hk.unique hu hu' hj

end PhpIndex
