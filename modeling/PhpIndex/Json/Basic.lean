/-!
# JSON values

The values in which answers are handed to other programs, and their two printed forms: compact,
on one line and without blanks, and indented by two blanks a level. Numbers are whole, and an
object keeps its members in the order given.
-/
namespace PhpIndex

inductive Json where
  | null
  | bool (b : Bool)
  | number (n : Int)
  | string (s : String)
  | array (items : List Json)
  | object (members : List (String × Json))

namespace Json

instance : Inhabited Json := ⟨.null⟩

/-- A member of an object, null if there is none. -/
def field (j : Json) (key : String) : Json :=
  match j with
  | .object members => (members.lookup key).getD .null
  | _ => .null

def isNull : Json → Bool
  | .null => true
  | _ => false

def items : Json → List Json
  | .array items => items
  | _ => []

def members : Json → List (String × Json)
  | .object members => members
  | _ => []

/-- Within a string quotes, backslashes and control characters are escaped, and nothing else. -/
def escapeChar (c : Char) : List Char :=
  if c = '"' then ['\\', '"']
  else if c = '\\' then ['\\', '\\']
  else if c = '\n' then ['\\', 'n']
  else if c = '\r' then ['\\', 'r']
  else if c = '\t' then ['\\', 't']
  else if c = '\x08' then ['\\', 'b']
  else if c = '\x0c' then ['\\', 'f']
  else if c.toNat < 32 then
    ['\\', 'u', '0', '0', Nat.digitChar (c.toNat / 16), Nat.digitChar (c.toNat % 16)]
  else [c]

def quote (s : String) : String := "\"" ++ String.ofList (s.toList.flatMap escapeChar) ++ "\""

mutual

def compact : Json → String
  | .null => "null"
  | .bool b => if b then "true" else "false"
  | .number n => toString n
  | .string s => quote s
  | .array items => "[" ++ compactItems items ++ "]"
  | .object members => "\x7b" ++ compactMembers members ++ "\x7d"

def compactItems : List Json → String
  | [] => ""
  | [a] => compact a
  | a :: rest => compact a ++ "," ++ compactItems rest

def compactMembers : List (String × Json) → String
  | [] => ""
  | [(k, v)] => quote k ++ ":" ++ compact v
  | (k, v) :: rest => quote k ++ ":" ++ compact v ++ "," ++ compactMembers rest

end

/-- A new line at a level of indentation. -/
def newLine (level : Nat) : String := "\n" ++ String.ofList (List.replicate (2 * level) ' ')

mutual

/-- Empty arrays and objects stay on their line. -/
def pretty (level : Nat) : Json → String
  | .null => "null"
  | .bool b => if b then "true" else "false"
  | .number n => toString n
  | .string s => quote s
  | .array [] => "[]"
  | .array (a :: rest) =>
    "[" ++ newLine (level + 1) ++ pretty (level + 1) a ++ prettyItems (level + 1) rest ++
      newLine level ++ "]"
  | .object [] => "\x7b\x7d"
  | .object ((k, v) :: rest) =>
    "\x7b" ++ newLine (level + 1) ++ quote k ++ ": " ++ pretty (level + 1) v ++
      prettyMembers (level + 1) rest ++ newLine level ++ "\x7d"

def prettyItems (level : Nat) : List Json → String
  | [] => ""
  | a :: rest => "," ++ newLine level ++ pretty level a ++ prettyItems level rest

def prettyMembers (level : Nat) : List (String × Json) → String
  | [] => ""
  | (k, v) :: rest =>
    "," ++ newLine level ++ quote k ++ ": " ++ pretty level v ++ prettyMembers level rest

end

end Json

/-- Values with a form in JSON. -/
class ToJson (α : Type) where
  toJson : α → Json

export ToJson (toJson)

instance : ToJson Json := ⟨id⟩
instance : ToJson Bool := ⟨.bool⟩
instance : ToJson Nat := ⟨fun n => .number n⟩
instance : ToJson Int := ⟨.number⟩
instance : ToJson UInt32 := ⟨fun n => .number n.toNat⟩
instance : ToJson Int32 := ⟨fun n => .number n.toInt⟩
instance : ToJson Int64 := ⟨fun n => .number n.toInt⟩
instance : ToJson String := ⟨.string⟩
instance : ToJson Unit := ⟨fun _ => .null⟩
instance [ToJson α] : ToJson (Option α) := ⟨fun a => (a.map toJson).getD .null⟩
instance [ToJson α] : ToJson (List α) := ⟨fun l => .array (l.map toJson)⟩

/-- A pair is an array of two. -/
instance [ToJson α] [ToJson β] : ToJson (α × β) := ⟨fun p => .array [toJson p.1, toJson p.2]⟩

/-- Values that can be read from JSON. What is missing or of another form is read as the empty
value of its type. -/
class FromJson (α : Type) where
  fromJson : Json → α

export FromJson (fromJson)

namespace Json

def get [FromJson α] (j : Json) (key : String) : α := fromJson (j.field key)

def int : Json → Int
  | .number n => n
  | _ => 0

end Json

instance : FromJson Json := ⟨id⟩
instance : FromJson Int := ⟨Json.int⟩
instance : FromJson Nat := ⟨fun j => j.int.toNat⟩
instance : FromJson UInt32 := ⟨fun j => .ofNat j.int.toNat⟩
instance : FromJson Int32 := ⟨fun j => .ofInt j.int⟩
instance : FromJson Int64 := ⟨fun j => .ofInt j.int⟩
instance : FromJson Bool := ⟨fun j => match j with | .bool b => b | _ => false⟩
instance : FromJson String := ⟨fun j => match j with | .string s => s | _ => ""⟩
instance [FromJson α] : FromJson (Option α) :=
  ⟨fun j => if j.isNull then none else some (fromJson j)⟩
instance [FromJson α] : FromJson (List α) := ⟨fun j => j.items.map fromJson⟩

end PhpIndex
