import PhpIndex.Lookup.Ancestry
import PhpIndex.Lookup.Context

/-!
# Completion

The symbols that may stand where a name is being typed: those with a word that begins with what
stands of the name left of the cursor.
-/
namespace PhpIndex

/-- What was typed of a name before an offset. The range in which the name is written may begin
with a dollar sign or a qualifier that the name lacks. -/
def typedKeyword (name : String) (written? : Option Range) (offset : UInt32) : String :=
  match written? with
  | none => ""
  | some written =>
    if written.contains offset then
      let typed := (offset - written.start).toNat
      let lead := written.length.toNat - name.utf8ByteSize
      Text.takeBytes (min (typed - lead) name.utf8ByteSize) name
    else ""

/-- Members listed so far, and the kinds and names that they shadow. -/
structure MemberListing where
  found : List Symbol := []
  shadowed : List (TableKind × String) := []

namespace MemberListing

/-- Lists a member of the wanted access unless a nearer class has one of its kind and name. -/
def add (kind : TableKind) (wantStatic : Bool) (l : MemberListing) (s : Symbol) :
    MemberListing :=
  if s.isStatic != wantStatic || (kind, s.name) ∈ l.shadowed then l
  else ⟨l.found ++ [s], l.shadowed ++ [(kind, s.name)]⟩

end MemberListing

namespace SymbolSource

/-- The members of one kind that the keyword leads to. -/
def membersFor (source : SymbolSource) (kind : TableKind) (owner keyword : String) :
    Except StoreError (List Symbol) :=
  if keyword.isEmpty then source.membersOf kind owner
  else source.search kind owner keyword (UInt64.size - 1)

/-- Lists the members of a class, kind by kind. -/
def listOwner (source : SymbolSource) (wantStatic : Bool) (owner keyword : String) :
    List TableKind → MemberListing → Except StoreError MemberListing
  | [], l => .ok l
  | kind :: more, l => do
    let members ← source.membersFor kind owner keyword
    listOwner source wantStatic owner keyword more
      (members.foldl (MemberListing.add kind wantStatic) l)

/-- Lists the members of classes in order. `true` tells that the limit is reached, after which no
further class is asked. -/
def listOwners (source : SymbolSource) (wantStatic : Bool) (keyword : String) (limit : Nat)
    (kinds : List TableKind) :
    List String → MemberListing → Except StoreError (Bool × MemberListing)
  | [], l => .ok (false, l)
  | owner :: more, l => do
    let l ← source.listOwner wantStatic owner keyword kinds l
    if limit ≤ l.found.length then pure (true, l)
    else listOwners source wantStatic keyword limit kinds more l

/-- Lists the members of the ancestries of classes in order. -/
def listReceivers (source : SymbolSource) (wantStatic : Bool) (keyword : String) (limit : Nat)
    (kinds : List TableKind) :
    List String → MemberListing → Except StoreError MemberListing
  | [], l => .ok l
  | receiver :: more, l => do
    let chain ← source.ancestry receiver
    let (full, l) ← source.listOwners wantStatic keyword limit kinds chain l
    if full then pure l else listReceivers source wantStatic keyword limit kinds more l

/-- An arrow lists methods and properties of an object, a double colon static members and class
constants. Members of nearer classes come first and shadow inherited ones. -/
def completeMembers (source : SymbolSource) (ctx : DocumentContext) (r : Reference)
    (keyword : String) (limit : Nat) : Except StoreError (List Symbol) := do
  let wantStatic := r.kind.isStaticAccess
  let kinds := if wantStatic then TableKind.members else [.methods, .properties]
  let l ← source.listReceivers wantStatic keyword limit kinds (ctx.receivers r) {}
  pure l.found

/-- Classes, functions and constants with a word that begins with the keyword, up to `limit` of
each kind. -/
def searchTopLevel (source : SymbolSource) (keyword : String) (limit : Nat) :
    Except StoreError (List Symbol) := do
  let found ← TableKind.topLevel.mapM (fun kind => source.search kind "" keyword limit)
  pure (Symbol.candidates found.flatten)

/-- Up to `limit` top-level declarations with a word that begins with the query. -/
def workspaceSymbols (source : SymbolSource) (query : String) (limit : Nat) :
    Except StoreError (List Symbol) := do
  let found ← source.searchTopLevel query limit
  pure (found.take limit)

end SymbolSource

namespace DocumentContext

/-- The other variables of the scope whose names begin with the keyword. -/
def completeVariables (ctx : DocumentContext) (r : Reference) (keyword : String) : List Symbol :=
  let scope := ctx.scopeFor r
  let entries := scope.types.entries.filter fun e =>
    Text.startsWith keyword e.1 && e.1 != r.name
  entries.map (fun e => .variable ⟨e.1, scope.location, e.2⟩)

end DocumentContext

namespace SymbolSource

/-- Up to `limit` symbols that may complete a reference with the cursor at the offset. -/
def completion (source : SymbolSource) (ctx : DocumentContext) (r : Reference) (offset : UInt32)
    (limit : Nat) : Except StoreError (List Symbol) := do
  let found ←
    if r.kind = .argumentList then pure []
    else if r.kind = .variable then
      pure (ctx.completeVariables r (typedKeyword r.name r.range? offset))
    else if r.kind.isMember then
      source.completeMembers ctx r (typedKeyword r.name r.memberRange? offset) limit
    else
      let written := (r.types.first?.map TypeName.shortName).getD ""
      source.searchTopLevel (typedKeyword written r.range? offset) limit
  pure (found.take limit)

end SymbolSource
end PhpIndex
