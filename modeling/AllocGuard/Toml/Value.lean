import AllocGuard.Toml.Moment

/-! Values of TOML documents. A table remembers how it came about, because that decides
whether later parts of the document may add to it. -/
namespace AllocGuard

/-- How a table came about. -/
inductive TableOrigin where
  /-- By a header of its own; the table of the whole document counts as such. -/
  | header
  /-- On the way to the table of another header. -/
  | path
  /-- By a dotted key. -/
  | dotted
  /-- In braces. -/
  | inline
deriving Repr, DecidableEq

inductive Toml where
  | string (text : String)
  | integer (value : Int)
  | float (value : Float)
  | boolean (value : Bool)
  | moment (value : Moment)
  | array (items : List Toml)
  | table (origin : TableOrigin) (fields : List (String × Toml))
  /-- An array of tables made by headers. -/
  | tables (elements : List Toml)

namespace Toml

/-- The fields with another value at a key that is there. -/
def replace (fields : List (String × Toml)) (key : String) (value : Toml) :
    List (String × Toml) :=
  fields.map fun (k, v) => if k == key then (k, value) else (k, v)

/-- A change of a table, given by its origin and its fields. It may be refused. -/
abbrev Change := TableOrigin → List (String × Toml) → Option (TableOrigin × List (String × Toml))

/-- The change made at the table that a path leads to. Tables that are missing on the
way are made, and an array of tables stands for its last element. A dotted path does
not lead through a table that has a header, and no path leads through a value. -/
def changeAt (isDotted : Bool) (change : Change) : List String → Change
  | [], origin, fields => change origin fields
  | key :: path, origin, fields =>
    match fields.lookup key with
    | none => do
      let (o, f) ← changeAt isDotted change path (if isDotted then .dotted else .path) []
      return (origin, fields ++ [(key, .table o f)])
    | some (.table o f) =>
      if o == .inline || (isDotted && o == .header) then none
      else do
        let (o, f) ← changeAt isDotted change path o f
        return (origin, replace fields key (.table o f))
    | some (.tables elements) =>
      match elements.getLast? with
      | some (.table o f) => do
        let (o, f) ← changeAt isDotted change path o f
        return (origin, replace fields key (.tables (elements.dropLast ++ [.table o f])))
      | _ => none
    | some _ => none

/-- A new key at the end of a path of dotted keys. The table at the end of a path that
is not empty has to be made by dotted keys itself. -/
def addKey (path : List String) (key : String) (value : Toml) : Change :=
  changeAt true
    (fun origin fields =>
      if (origin == .dotted) == path.isEmpty || (fields.lookup key).isSome then none
      else some (origin, fields ++ [(key, value)]))
    path

/-- A dotted key and its value. -/
def addPair (keys : List String) (value : Toml) : Change :=
  match keys.getLast? with
  | some key => addKey keys.dropLast key value
  | none => fun _ _ => none

/-- A table with a header, which may have been made on the way to another. -/
def addTable (keys : List String) : Change :=
  match keys.getLast? with
  | none => fun _ _ => none
  | some key =>
    changeAt false
      (fun origin fields =>
        match fields.lookup key with
        | none => some (origin, fields ++ [(key, .table .header [])])
        | some (.table .path f) => some (origin, replace fields key (.table .header f))
        | some _ => none)
      keys.dropLast

/-- One more element of an array of tables. -/
def addElement (keys : List String) : Change :=
  match keys.getLast? with
  | none => fun _ _ => none
  | some key =>
    changeAt false
      (fun origin fields =>
        match fields.lookup key with
        | none => some (origin, fields ++ [(key, .tables [.table .header []])])
        | some (.tables elements) =>
          some (origin, replace fields key (.tables (elements ++ [.table .header []])))
        | some _ => none)
      keys.dropLast

/-- A table in braces with these dotted keys and values. -/
def inlineTable (pairs : List (List String × Toml)) : Option Toml := do
  let (origin, fields) ← pairs.foldlM
    (fun (origin, fields) (keys, value) => addPair keys value origin fields) (.inline, [])
  return .table origin fields

end Toml

end AllocGuard
