import PhpIndex.Document.Position
import PhpIndex.Json.Model

/-!
# Documents in JSON

The forms of syntax trees, positions and of what was extracted from a document.
-/
namespace PhpIndex

/-- A row is an array of the depth, the kind, the two ends of the range and the name of the part,
if there is one. -/
instance : FromJson TreeRow where
  fromJson
    | .array (depth :: kind :: start :: stop :: field) =>
      ⟨fromJson depth, fromJson kind, ⟨fromJson start, fromJson stop⟩, field.head?.map fromJson⟩
    | _ => ⟨0, "", default, none⟩

instance : FromJson SyntaxTree := ⟨fun j => .ofRows (fromJson j)⟩

instance : ToJson Position :=
  ⟨fun p => .object [("line", toJson p.line), ("character", toJson p.column)]⟩

/-- The members of an object that shows what was extracted. -/
def Extraction.members (e : Extraction) : List (String × Json) :=
  [("imports", toJson e.imports), ("globals", toJson e.globals), ("scopes", toJson e.scopes),
   ("symbols", toJson e.symbols), ("references", toJson e.references)]

end PhpIndex
