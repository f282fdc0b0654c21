import PhpIndex.Record.Document

/-!
# Document contexts

What names and variables mean in the document in which a reference stands.
-/
namespace PhpIndex

/-- The first of the elements with the least measure. -/
def leastBy (measure : α → Nat) : List α → Option α
  | [] => none
  | a :: rest =>
    match leastBy measure rest with
    | some b => if measure b < measure a then some b else some a
    | none => some a

structure DocumentContext where
  uri : String
  imports : Imports
  globals : VariableScope
  scopes : List VariableScope
  deriving DecidableEq

namespace DocumentContext

/-- The context of a document of which nothing is known. -/
def empty (uri : String) : DocumentContext := ⟨uri, .empty, default, []⟩

def ofRecord (record : DocumentRecord) (scopes : List VariableScope) : DocumentContext :=
  ⟨record.uri, record.imports, record.globals, scopes⟩

/-- The smallest function scope around a reference, else the top level of the document. -/
def scopeFor (ctx : DocumentContext) (r : Reference) : VariableScope :=
  match r.scopeRange?.orElse (fun _ => r.range?) with
  | none => ctx.globals
  | some target =>
    let around := ctx.scopes.filter fun s => s.range?.any (fun range => range.encloses target)
    let length := fun (s : VariableScope) => ((s.range?.map Range.length).getD 0).toNat
    (leastBy length around).getD ctx.globals

/-- The types of a variable where a reference stands; where nothing is known of it, those at the
top level. -/
def variableTypes (ctx : DocumentContext) (r : Reference) (name : String) : TypeUnion :=
  let inner := ((ctx.scopeFor r).get? name).getD .empty
  if inner.isEmpty then (ctx.globals.get? name).getD .empty else inner

/-- The names of a reference's scope with every variable replaced by its types. -/
def receiverTypes (ctx : DocumentContext) (r : Reference) : List TypeName :=
  (r.scope?.getD .empty).types.flatMap fun t =>
    if t.isVariable then (ctx.variableTypes r t.name).types else [t]

/-- The classes on which a member may be looked up, each once, in the order in which they were
first seen. Built-in types are none. -/
def receivers (ctx : DocumentContext) (r : Reference) : List String :=
  let classes := (ctx.receiverTypes r).filter fun t =>
    !(t.isBuiltin || t.isVariable || t.name.isEmpty)
  (classes.map (fun t => (t.resolve ctx.imports).name)).eraseDups

end DocumentContext
end PhpIndex
