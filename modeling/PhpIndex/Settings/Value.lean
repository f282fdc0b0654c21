/-!
# Values of settings

What a settings file or an environment says, before it is known whether it fits. Layers of values
lie over each other: tables are joined entry by entry, and anything else is replaced.
-/
namespace PhpIndex

/-- Sets an entry in its old place, or at the end if it is new. -/
def setEntry (key : String) (value : α) : List (String × α) → List (String × α)
  | [] => [(key, value)]
  | (k, v) :: rest => if k = key then (key, value) :: rest else (k, v) :: setEntry key value rest

inductive ConfigValue where
  | bool (b : Bool)
  | integer (n : Int)
  /-- A number with a fraction or an exponent, as it is spelled: no setting is such a number. -/
  | float (spelled : String)
  | text (s : String)
  | list (items : List ConfigValue)
  | table (entries : List (String × ConfigValue))

namespace ConfigValue

mutual

/-- A value with another layer over it. -/
def coveredBy (below : ConfigValue) : ConfigValue → ConfigValue
  | .table entries =>
    match below with
    | .table old => .table (coverEntries old entries)
    | _ => .table entries
  | other => other

def coverEntries (below : List (String × ConfigValue)) :
    List (String × ConfigValue) → List (String × ConfigValue)
  | [] => below
  | (key, value) :: rest =>
    let value := match below.lookup key with
      | some old => coveredBy old value
      | none => value
    coverEntries (setEntry key value below) rest

end

/-- The value at the end of a path of keys, within the tables on the way. -/
def nested (value : ConfigValue) : List String → ConfigValue
  | [] => value
  | key :: rest => .table [(key, nested value rest)]

def bool? : ConfigValue → Option Bool
  | .bool b => some b
  | _ => none

def text? : ConfigValue → Option String
  | .text s => some s
  | _ => none

/-- A natural number below a bound. -/
def natural? (bound : Nat) : ConfigValue → Option Nat
  | .integer n => if 0 ≤ n ∧ n < bound then some n.toNat else none
  | _ => none

def texts? : ConfigValue → Option (List String)
  | .list items => items.mapM text?
  | _ => none

/-- A part of a section, by its name in a table and by its place in a list; a part that is left
out is `missing`. -/
def part (section_ : ConfigValue) (place : Nat) (name : String) (missing : α)
    (read : ConfigValue → Option α) : Option α :=
  match section_ with
  | .table entries => ((entries.lookup name).map read).getD (some missing)
  | .list items => (items[place]?.map read).getD (some missing)
  | _ => none

end ConfigValue
end PhpIndex
