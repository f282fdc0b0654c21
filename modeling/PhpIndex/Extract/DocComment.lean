import PhpIndex.Name.TypeUnion

/-!
# Documentation comments

The description in front of the tags of a documentation comment, and the types that its tags
`@param`, `@return` and `@var` declare.
-/
namespace PhpIndex

/-- What a `@var` tag says, and of which variable if it names one. -/
structure VarTag where
  name? : Option String
  types : TypeUnion
  deriving DecidableEq

/-- Parameters are named without the dollar sign. -/
structure DocComment where
  description? : Option String := none
  params : List (String × TypeUnion) := []
  returns : TypeUnion := .empty
  var? : Option VarTag := none
  deriving DecidableEq

namespace DocComment

def isDocComment (text : String) : Bool := Text.startsWith "/**" text && text != "/**/"

/-- The alternatives between bars, except for bars within angle brackets or braces. `depth` is
the number of brackets that are open, `part` what was read of the alternative, reversed. -/
def alternatives (depth : Nat) (part : List Char) : List Char → List (List Char)
  | [] => [part.reverse]
  | c :: rest =>
    if c = '<' ∨ c = '\x7b' then alternatives (depth + 1) (c :: part) rest
    else if c = '>' ∨ c = '\x7d' then alternatives (depth - 1) (c :: part) rest
    else if c = '|' ∧ depth = 0 then part.reverse :: alternatives depth [] rest
    else alternatives depth (c :: part) rest

/-- The types of one alternative: whatever has an element type is an array, and a question mark
in front adds null. -/
def typesOfAlternative (part : String) : List TypeName :=
  let (part, nullable) :=
    match Text.afterLead? "?" part with
    | some rest => (rest, true)
    | none => (part, false)
  let isArray := Text.endsWith "[]" part || part.toList.any fun c => c == '<' || c == '\x7b'
  let name := if isArray then "array" else Text.trimBoth (fun c => c == '(' || c == ')') part
  (if name.isEmpty then [] else [TypeName.ofSource name]) ++
    (if nullable then [TypeName.ofSource "null"] else [])

/-- The union that a type in a tag spells. -/
def parseTypes (text : String) : TypeUnion :=
  let parts := (alternatives 0 [] text.toList).map (fun p => Text.trimBlank (String.ofList p))
  .ofList ((parts.filter (fun p => !p.isEmpty)).flatMap typesOfAlternative)

/-- The name of a parameter without its marks. -/
def paramName (word : String) : String :=
  let name := Text.trimStart (· == '&') word
  let name := trimDots name.toList
  Text.trimEnd (· == ',') (Text.trimStart (· == '$') (String.ofList name))
where
  /-- Drops every three dots in front. -/
  trimDots : List Char → List Char
    | '.' :: '.' :: '.' :: rest => trimDots rest
    | other => other

def namesVariable (word : String) : Bool := Text.startsWith "$" word

def addParam (d : DocComment) (rest : List String) : DocComment :=
  match rest with
  | [] => d
  | first :: more =>
    if namesVariable first then { d with params := d.params ++ [(paramName first, .empty)] }
    else
      match more with
      | [] => d
      | second :: _ =>
        if namesVariable (Text.trimStart (· == '&') second) then
          { d with params := d.params ++ [(paramName second, parseTypes first)] }
        else d

def addVar (d : DocComment) (rest : List String) : DocComment :=
  match rest with
  | [] => d
  | [only] => { d with var? := some ⟨none, parseTypes only⟩ }
  | first :: second :: _ =>
    if namesVariable first then { d with var? := some ⟨some first, parseTypes second⟩ }
    else if namesVariable second then { d with var? := some ⟨some second, parseTypes first⟩ }
    else { d with var? := some ⟨none, parseTypes first⟩ }

/-- Takes in one tag, without the sign in front of it. Unknown tags say nothing. -/
def addTag (d : DocComment) (line : String) : DocComment :=
  match Text.words line with
  | [] => d
  | tag :: rest =>
    if tag = "param" then d.addParam rest
    else if tag = "return" then
      match rest with
      | [] => d
      | types :: _ => { d with returns := d.returns.merge (parseTypes types) }
    else if tag = "var" then d.addVar rest
    else d

/-- The lines of a comment without its delimiters and the stars in front. -/
def contentLines (text : String) : List String :=
  let body := Text.trimBlank text
  let body := (Text.afterLead? "/**" body).getD body
  let body := (Text.beforeTail? "*/" body).getD body
  (Text.linesOf body).map fun line =>
    let line := Text.trimBlank line
    Text.trimBlank ((Text.afterLead? "*" line).getD line)

/-- The description ends with the first tag. -/
def parse (text : String) : DocComment :=
  let lines := contentLines text
  let isTag := fun line => Text.startsWith "@" line
  let description := Text.trimBlank (Text.joinWith "\n" (lines.takeWhile (fun l => !isTag l)))
  let tags := lines.filterMap (Text.afterLead? "@")
  let read := tags.foldl addTag {}
  { read with description? := if description.isEmpty then none else some description }

/-- The types declared for a parameter. -/
def paramTypes? (d : DocComment) (name : String) : Option TypeUnion := d.params.lookup name

end DocComment
end PhpIndex
