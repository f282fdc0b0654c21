import PhpIndex.Source.Range

/-!
# Syntax trees

The tree that a grammar finds in a document, down to keywords and punctuation, and its table
form: a row for each node in preorder, with the depth at which it stands.
-/
namespace PhpIndex

/-- `field?` is the name of the part that the node plays in its parent. -/
inductive SyntaxTree where
  | node (kind : String) (field? : Option String) (range : Range) (children : List SyntaxTree)

namespace SyntaxTree

/-- A document without text. -/
def blank : SyntaxTree := .node "program" none ⟨0, 0⟩ []

instance : Inhabited SyntaxTree := ⟨blank⟩

def kind : SyntaxTree → String
  | .node kind _ _ _ => kind

def field? : SyntaxTree → Option String
  | .node _ field _ _ => field

def range : SyntaxTree → Range
  | .node _ _ range _ => range

def children : SyntaxTree → List SyntaxTree
  | .node _ _ _ children => children

def hasField (t : SyntaxTree) (name : String) : Bool :=
  t.children.any (fun child => child.field? == some name)

end SyntaxTree

structure TreeRow where
  depth : Nat
  kind : String
  range : Range
  field? : Option String

namespace TreeRow

/-- Reads rows from the last one up. `pending` holds the trees that were read and have no parent
yet, each with its depth, in document order. -/
def attach (row : TreeRow) (pending : List (Nat × SyntaxTree)) : List (Nat × SyntaxTree) :=
  let children := pending.takeWhile (fun p => row.depth < p.1)
  let rest := pending.dropWhile (fun p => row.depth < p.1)
  (row.depth, .node row.kind row.field? row.range (children.map Prod.snd)) :: rest

end TreeRow

namespace SyntaxTree

/-- The tree that the rows describe: a node's children are the rows below it up to the next row
that stands no deeper than it. -/
def ofRows (rows : List TreeRow) : SyntaxTree :=
  ((rows.foldr TreeRow.attach []).head?.map Prod.snd).getD blank

end SyntaxTree
end PhpIndex
