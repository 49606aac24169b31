/-!
# Structured data

The tree of values that a JSON text or a configuration file stands for. Numbers are exact integers;
any other number or date is kept as its text and never read further.

A string that is not well-formed text is kept as `none`: it may be skipped over, but nothing can be
read from it.

* `Data`, and readers of its parts: `Data.text?`, `Data.natural?`, `Data.list?`;
* `Data.fields?`: the named fields of a table, or of a list in the same order;
* `Data.isWellFormed`: whether every string and name is a text;
* `Data.sorted`: the fields of every table in order, the last of equal names kept.
-/

namespace TransparencyLog

/-- A structured value. -/
inductive Data
  | null
  | bool (value : Bool)
  | integer (value : Int)
  | other (written : String)
  | string (content : Option String)
  | list (items : List Data)
  | table (fields : List (Option String × Data))
deriving Repr, Inhabited, BEq

namespace Data

/-- A well-formed text. -/
def text (s : String) : Data := .string (some s)

def object (fields : List (String × Data)) : Data := .table (fields.map fun (name, d) => (some name, d))

/-- The text of a well-formed string. -/
def text? : Data → Option String
  | .string content => content
  | _ => none

/-- A natural number below `bound`. -/
def natural? (bound : Nat) : Data → Option Nat
  | .integer (.ofNat n) => if n < bound then some n else none
  | _ => none

def list? : Data → Option (List Data)
  | .list items => some items
  | _ => none

/-- The values of the fields with a name. -/
def named (fields : List (Option String × Data)) (name : String) : List Data :=
  fields.filterMap fun (n, d) => if n = some name then some d else none

/-- The value of a field that occurs at most once. -/
def atMostOnce (values : List Data) : Option (Option Data) :=
  match values with
  | [] => some none
  | [d] => some (some d)
  | _ => none

/-- The values of the named fields, each at most once; other fields are passed over. A list stands
for the fields in order when it has exactly that many items. -/
def fields? (names : List String) : Data → Option (List (Option Data))
  | .table fields =>
    if fields.any fun (name, _) => name.isNone then none
    else names.mapM fun name => atMostOnce (named fields name)
  | .list items => if items.length = names.length then some (items.map some) else none
  | _ => none

/-- The values of the named fields, each at most once; other fields are passed over. A list stands
for the fields in order, however many items it has. -/
def parts? (names : List String) : Data → Option (List (Option Data))
  | .list items => some (names.zipIdx.map fun (_, i) => items[i]?)
  | d => fields? names d

mutual

/-- Whether every string and every name in a value is a text. -/
def isWellFormed : Data → Bool
  | .string content => content.isSome
  | .list items => areWellFormed items
  | .table fields => haveWellFormed fields
  | _ => true

/-- Whether this holds of all items. -/
def areWellFormed : List Data → Bool
  | [] => true
  | d :: rest => isWellFormed d && areWellFormed rest

/-- Whether this holds of all fields. -/
def haveWellFormed : List (Option String × Data) → Bool
  | [] => true
  | (name, d) :: rest => name.isSome && isWellFormed d && haveWellFormed rest

end

/-- Inserts a field in order of names, replacing one of the same name. -/
def insertField (name : Option String) (d : Data) :
    List (Option String × Data) → List (Option String × Data)
  | [] => [(name, d)]
  | (first, e) :: rest =>
    match compare (name.getD "") (first.getD "") with
    | .lt => (name, d) :: (first, e) :: rest
    | .eq => (name, d) :: rest
    | .gt => (first, e) :: insertField name d rest

mutual

/-- The value with the fields of every table sorted by name. -/
def sorted : Data → Data
  | .list items => .list (sortedItems items)
  | .table fields => .table (sortedFields fields [])
  | d => d

def sortedItems : List Data → List Data
  | [] => []
  | d :: rest => sorted d :: sortedItems rest

/-- The fields, each sorted, put in order after those already there. -/
def sortedFields : List (Option String × Data) → List (Option String × Data) →
    List (Option String × Data)
  | [], done => done
  | (name, d) :: rest, done => sortedFields rest (insertField name (sorted d) done)

end

end Data

end TransparencyLog
