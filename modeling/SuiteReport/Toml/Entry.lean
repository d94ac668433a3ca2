import SuiteReport.Toml.Value
/-!
# Building documents

A document is built from headers and keys in the order in which they are written. A table may come to be in
three ways: by a header of its own, by the header of a table inside it, or by a dotted key; and each way has
its rule for what may still be added. Nothing is ever defined twice.

## Main definitions

* `Toml.Entry`: what a key stands for while the document is built.
* `Toml.Fields.put?`: adds the value of a dotted key.
* `Toml.Fields.atHeader?`, `Toml.Fields.atArrayHeader?`: add the fields that stand below a header.
* `Toml.Entry.finish`: the finished value.
-/

namespace SuiteReport.Toml

/-- How a table came to be. -/
inductive Origin where
  /-- By a header of its own. -/
  | header
  /-- By the header of a table inside it. -/
  | implied
  /-- By a dotted key. -/
  | dotted
deriving DecidableEq, Repr

/-- What a key stands for while the document is built. -/
inductive Entry where
  /-- A finished value. -/
  | value (v : Value)
  /-- A table. -/
  | table (origin : Origin) (fields : List (String × Entry))
  /-- The tables of a repeated header. -/
  | tables (elements : List (List (String × Entry)))
deriving Repr

/-- The keys of a table while the document is built. -/
abbrev Fields := List (String × Entry)

namespace Fields

/-- The fields with one of them replaced, or added at the end. -/
def set (key : String) (e : Entry) : Fields → Fields
  | [] => [(key, e)]
  | (k, old) :: later => if k = key then (k, e) :: later else (k, old) :: set key e later

/-- Applies a change to the last of several tables. -/
def onLast? (change : Fields → Option Fields) : List Fields → Option (List Fields)
  | [] => none
  | [last] => (change last).map ([·])
  | first :: later => (onLast? change later).map (first :: ·)

/-- Applies a change to the table inside `fields` at the end of a path, and answers `none` where the path
leads through a value. Tables that the path lacks come to be on the way, by the given origin. A dotted key
does not lead into a table with a header. -/
def descend? (origin : Origin) (change : Origin → Fields → Option Fields) :
    List String → Origin → Fields → Option Fields
  | [], here, fields => change here fields
  | key :: path, _, fields =>
    match fields.lookup key with
    | none => (descend? origin change path origin []).map fun inner => set key (.table origin inner) fields
    | some (.value _) => none
    | some (.table existing inner) =>
      if origin = .dotted ∧ existing = .header then none
      else (descend? origin change path existing inner).map fun inner => set key (.table existing inner) fields
    | some (.tables elements) =>
      (onLast? (descend? origin change path .header) elements).map fun elements =>
        set key (.tables elements) fields

/-- Adds the value of a key that no table has yet. -/
def putNew? (key : String) (e : Entry) (fields : Fields) : Option Fields :=
  if (fields.lookup key).isSome then none else some (set key e fields)

/-- Adds the value of a key, the last part of which comes after a path of dotted parts. The table at the end
of such a path has to be one that dotted keys made. -/
def put? (path : List String) (key : String) (v : Value) (fields : Fields) : Option Fields :=
  if path.isEmpty then
    putNew? key (.value v) fields
  else
    descend? .dotted
      (fun origin inner => if origin = .dotted then putNew? key (.value v) inner else none)
      path .header fields

/-- Adds the table of a header: `section?` puts the keys that stand below the header into the fields that
headers of inner tables have already given the table. -/
def atHeader? (path : List String) (key : String) (section? : Fields → Option Fields) (fields : Fields) :
    Option Fields :=
  descend? .implied
    (fun _ inner =>
      match inner.lookup key with
      | none => (section? []).map fun own => set key (.table .header own) inner
      | some (.table .implied given) => (section? given).map fun own => set key (.table .header own) inner
      | some _ => none)
    path .header fields

/-- Adds a table to those of a repeated header. -/
def atArrayHeader? (path : List String) (key : String) (section? : Fields → Option Fields)
    (fields : Fields) : Option Fields :=
  descend? .implied
    (fun _ inner =>
      match inner.lookup key with
      | none => (section? []).map fun own => set key (.tables [own]) inner
      | some (.tables elements) => (section? []).map fun own => set key (.tables (elements ++ [own])) inner
      | some _ => none)
    path .header fields

end Fields

namespace Entry

mutual

/-- The finished value of an entry. -/
def finish : Entry → Value
  | .value v => v
  | .table _ fields => .table (finishFields fields)
  | .tables elements => .array (finishTables elements)

/-- The finished values of the fields of a table. -/
def finishFields : List (String × Entry) → List (String × Value)
  | [] => []
  | (key, e) :: later => (key, finish e) :: finishFields later

/-- The finished values of several tables. -/
def finishTables : List (List (String × Entry)) → List Value
  | [] => []
  | fields :: later => .table (finishFields fields) :: finishTables later

end

end Entry

end SuiteReport.Toml
