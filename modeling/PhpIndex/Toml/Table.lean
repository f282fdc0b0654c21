import PhpIndex.Settings.Value

/-!
# Tables of TOML

How the tables of a document come about. A table is opened by a header of its own, is implied by
the header of a table within it, or is made by dotted keys; each part of a document may add only
to some of them, and no key is given twice.
-/
namespace PhpIndex.Toml

inductive TableOrigin where
  | header
  | implied
  | dotted
  deriving DecidableEq

/-- What stands under a key. The last one of several tables of one name is still open. -/
inductive Item where
  | value (v : ConfigValue)
  | table (origin : TableOrigin) (entries : List (String × Item))
  | tables (closed : List (List (String × Item))) (last : List (String × Item))

abbrev Items := List (String × Item)

/-- The keys and the value of a line. -/
structure Assignment where
  path : List String
  value : ConfigValue

/-- `[path]` begins a table, and `[[path]]` one more table of its name. -/
structure Header where
  path : List String
  oneOfMany : Bool

structure Section where
  header : Header
  assignments : List Assignment

/-- Gives a value to a dotted key. The last table on the way must be made by dotted keys, and none
before may have a header of its own. -/
def assign (value : ConfigValue) : List String → Items → Option Items
  | [], _ => none
  | [key], items => if (items.lookup key).isSome then none else some (setEntry key (.value value) items)
  | key :: next :: rest, items =>
    match items.lookup key with
    | none => do
      let made ← assign value (next :: rest) []
      some (setEntry key (.table .dotted made) items)
    | some (.table .dotted inner) => do
      let inner ← assign value (next :: rest) inner
      some (setEntry key (.table .dotted inner) items)
    | some (.table .implied inner) =>
      if rest.isEmpty then none
      else do
        let inner ← assign value (next :: rest) inner
        some (setEntry key (.table .implied inner) items)
    | some (.tables closed last) =>
      if rest.isEmpty then none
      else do
        let last ← assign value (next :: rest) last
        some (setEntry key (.tables closed last) items)
    | some (.table .header _) => none
    | some (.value _) => none

def assignAll (assignments : List Assignment) (items : Items) : Option Items :=
  assignments.foldlM (fun items a => assign a.value a.path items) items

/-- What a header makes of what stands under its last key, with the assignments that follow it. -/
def openTable (oneOfMany : Bool) (assignments : List Assignment) : Option Item → Option Item
  | none => do
    let entries ← assignAll assignments []
    some (if oneOfMany then .tables [] entries else .table .header entries)
  | some (.table .implied entries) =>
    if oneOfMany then none else (assignAll assignments entries).map (.table .header)
  | some (.tables closed last) =>
    if oneOfMany then (assignAll assignments []).map (.tables (closed ++ [last])) else none
  | some _ => none

/-- Puts a table in its place. Tables on the way that are not there yet are implied. -/
def place (oneOfMany : Bool) (assignments : List Assignment) : List String → Items → Option Items
  | [], _ => none
  | [key], items => do
    let item ← openTable oneOfMany assignments (items.lookup key)
    some (setEntry key item items)
  | key :: next :: rest, items => do
    let item ← match items.lookup key with
      | none => (place oneOfMany assignments (next :: rest) []).map (.table .implied)
      | some (.table origin inner) =>
        (place oneOfMany assignments (next :: rest) inner).map (.table origin)
      | some (.tables closed last) =>
        (place oneOfMany assignments (next :: rest) last).map (.tables closed)
      | some (.value _) => none
    some (setEntry key item items)

mutual

def Item.toValue : Item → ConfigValue
  | .value v => v
  | .table _ entries => .table (entriesOf entries)
  | .tables closed last => .list (tablesOf closed ++ [.table (entriesOf last)])

def entriesOf : List (String × Item) → List (String × ConfigValue)
  | [] => []
  | (key, item) :: rest => (key, item.toValue) :: entriesOf rest

def tablesOf : List (List (String × Item)) → List ConfigValue
  | [] => []
  | entries :: rest => .table (entriesOf entries) :: tablesOf rest

end

/-- The table of some assignments alone. -/
def tableOf (assignments : List Assignment) : Option ConfigValue :=
  (assignAll assignments []).map (fun items => .table (entriesOf items))

/-- The table of a document: the assignments in front of the first header, and the sections. -/
def documentOf (assignments : List Assignment) (sections : List Section) : Option ConfigValue := do
  let root ← assignAll assignments []
  let items ← sections.foldlM
    (fun items s => place s.header.oneOfMany s.assignments s.header.path items) root
  some (.table (entriesOf items))

end PhpIndex.Toml
