import PhpIndex.Lookup.Definition

/-!
# Help

What is shown about the call around the cursor and about the name under it.
-/
namespace PhpIndex

structure SignatureInfo where
  label : String
  documentation? : Option String
  parameters : List String
  deriving DecidableEq

structure SignatureHelp where
  signatures : List SignatureInfo
  activeSignature : Nat
  activeParameter : Nat
  deriving DecidableEq

structure Hover where
  contents : String
  range? : Option Range
  deriving DecidableEq

namespace SignatureInfo

def ofSymbol? (s : Symbol) : Option SignatureInfo :=
  s.signature?.map fun g => ⟨s.label, s.description?, g.parameters.map Parameter.label⟩

end SignatureInfo

/-- The argument at an offset: the first that ends no earlier, so that a cursor between two is at
the next one. Behind the last argument, and for arguments beyond the parameters, it is the last
parameter. -/
def activeParameter (arguments : List Range) (offset : UInt32) (parameters : Nat) : Nat :=
  let last := parameters - 1
  min ((arguments.findIdx? (fun r => offset ≤ r.stop)).getD last) last

namespace SymbolSource

/-- The signatures that a call may have, with the argument at the offset. -/
def signatureHelp (source : SymbolSource) (ctx : DocumentContext) (call : Reference)
    (offset : UInt32) : Except StoreError (Option SignatureHelp) := do
  let callees ← source.findCallee ctx call
  match callees.filterMap SignatureInfo.ofSymbol? with
  | [] => pure none
  | first :: more =>
    let active := activeParameter call.arguments offset first.parameters.length
    pure (some ⟨first :: more, 0, active⟩)

/-- The declarations that a reference may mean, each with its description. -/
def hover (source : SymbolSource) (ctx : DocumentContext) (r : Reference) :
    Except StoreError (Option Hover) := do
  let symbols ← source.definition ctx r
  if symbols.isEmpty then pure none
  else
    let sections := symbols.map fun s =>
      match s.description? with
      | some description => s.label ++ "\n\n" ++ description
      | none => s.label
    pure (some ⟨Text.joinWith "\n\n---\n\n" sections, r.range?⟩)

end SymbolSource
end PhpIndex
