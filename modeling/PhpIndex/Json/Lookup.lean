import PhpIndex.Json.Model
import PhpIndex.Lookup.Help

/-!
# Answers in JSON

The forms of what is shown about calls and names, and of contexts in which they are asked for.
-/
namespace PhpIndex

instance : ToJson SignatureInfo where
  toJson s := .object [("label", toJson s.label), ("documentation", toJson s.documentation?),
    ("parameters", toJson s.parameters)]

instance : ToJson SignatureHelp where
  toJson h := .object [("signatures", toJson h.signatures),
    ("active_signature", toJson h.activeSignature),
    ("active_parameter", toJson h.activeParameter)]

instance : ToJson Hover :=
  ⟨fun h => .object [("contents", toJson h.contents), ("range", toJson h.range?)]⟩

instance : FromJson DocumentContext where
  fromJson j := ⟨j.get "uri", j.get "imports", j.get "globals", j.get "scopes"⟩

end PhpIndex
