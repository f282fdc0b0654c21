import PhpIndex.Lookup.Ancestry
import PhpIndex.Lookup.Context

/-!
# Definitions

The declarations that a reference may mean. A name with several declarations means all of them,
and one without means nothing.
-/
namespace PhpIndex

namespace TableKind

/-- The imports through which names of this kind are resolved. -/
def importKind : TableKind → ImportKind
  | .functions => .function
  | .constants => .constant
  | _ => .class

end TableKind

namespace SymbolSource

/-- The declarations of one name. Functions and constants that the namespace does not declare
are looked up in the global one. -/
def findName (source : SymbolSource) (ctx : DocumentContext) (kind : TableKind) (t : TypeName) :
    Except StoreError (List Symbol) := do
  let t := t.resolveAs ctx.imports kind.importKind
  let hits ← source.find kind t.name
  if hits.isEmpty && kind != .classes && t.name.contains '\\' then source.find kind t.shortName
  else pure hits

/-- The declarations of all names of a reference. -/
def findTopLevel (source : SymbolSource) (ctx : DocumentContext) (r : Reference)
    (kind : TableKind) : Except StoreError (List Symbol) := do
  let names := r.types.types.filter (fun t => !(t.isBuiltin || t.isVariable))
  let hits ← names.mapM (source.findName ctx kind)
  pure (Symbol.candidates hits.flatten)

/-- The declarations of a member in the nearest of the classes that has any. -/
def findNearest (source : SymbolSource) (kinds : List TableKind) (member : String) :
    List String → Except StoreError (List Symbol)
  | [] => .ok []
  | owner :: more => do
    let hits ← kinds.mapM (fun kind => source.find kind (memberKey owner member))
    if hits.flatten.isEmpty then findNearest source kinds member more else pure hits.flatten

/-- The declarations of a member on every class that it may be taken from. -/
def findMembers (source : SymbolSource) (ctx : DocumentContext) (r : Reference)
    (kinds : List TableKind) : Except StoreError (List Symbol) := do
  if r.name.isEmpty then pure []
  else
    let hits ← (ctx.receivers r).mapM fun owner => do
      let chain ← source.ancestry owner
      source.findNearest kinds r.name chain
    pure (Symbol.candidates hits.flatten)

/-- What an argument list is passed to: a method where the call has a scope, else a function. A
constructor call names the constructor and has the class as its scope. -/
def findCallee (source : SymbolSource) (ctx : DocumentContext) (call : Reference) :
    Except StoreError (List Symbol) :=
  if call.scope?.isSome then source.findMembers ctx call [.methods]
  else source.findTopLevel ctx call .functions

end SymbolSource

namespace DocumentContext

/-- The variable that a reference names, where it is bound. -/
def findVariable (ctx : DocumentContext) (r : Reference) : List Symbol :=
  match ((ctx.scopeFor r).get? r.name).orElse (fun _ => ctx.globals.get? r.name) with
  | some types => [.variable ⟨r.name, r.location, types⟩]
  | none => []

end DocumentContext

namespace SymbolSource

/-- Every declaration that a reference may mean. -/
def definition (source : SymbolSource) (ctx : DocumentContext) (r : Reference) :
    Except StoreError (List Symbol) :=
  match r.kind with
  | .function => source.findTopLevel ctx r .functions
  | .constantAccess => source.findTopLevel ctx r .constants
  | .className => source.findTopLevel ctx r .classes
  | .newOperand => source.findTopLevel ctx r .classes
  | .staticMethod => source.findMembers ctx r [.methods]
  | .methodCall => source.findMembers ctx r [.methods]
  | .staticProperty => source.findMembers ctx r [.properties]
  | .propertyAccess => source.findMembers ctx r [.properties]
  | .classConstant => source.findMembers ctx r [.classConstants]
  | .scopedAccess => source.findMembers ctx r TableKind.members
  | .argumentList => source.findCallee ctx r
  | .variable => .ok (ctx.findVariable r)

end SymbolSource
end PhpIndex
