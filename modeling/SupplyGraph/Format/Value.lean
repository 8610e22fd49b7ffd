import SupplyGraph.Bytes

/-!
The data that a written format holds: values as they are read, documents as they are written, and how a value
gives the fields of a record.
-/

namespace SupplyGraph

inductive Value
  | null
  | bool (value : Bool)
  | unsigned (width n : Nat)
  | signed (n : Int)
  /-- A number that is no integer; no record has one. -/
  | float
  | text (content : String)
  | binary (bytes : Bytes)
  | list (items : List Value)
  | map (entries : List (Value × Value))
  | extension (tag : Nat) (data : Bytes)
deriving Inhabited

inductive Document
  | bool (value : Bool)
  | natural (n : Nat)
  | text (content : String)
  | list (items : List Document)
  | record (fields : List (String × Document))
deriving Inhabited

namespace Value

def ofContent (content : Bytes) : Value :=
  match Bytes.toString? content with
  | some characters => .text characters
  | none => .binary content

def natural? : Value → Option Nat
  | unsigned _ n => some n
  | signed n => if 0 ≤ n then some n.toNat else none
  | _ => none

def naturalBelow? (bound : Nat) (value : Value) : Option Nat := value.natural?.filter (· < bound)

def text? : Value → Option String
  | text content => some content
  | binary bytes => Bytes.toString? bytes
  | _ => none

def isText : Value → Bool
  | text _ => true
  | _ => false

def list? : Value → Option (List Value)
  | list items => some items
  | _ => none

/-- What the key of an entry says: one of the fields, by number, or some other one. A field goes by its name, or
by its number written in one byte or in eight. -/
inductive Key
  | field (index : Nat)
  | other
deriving DecidableEq

def key? (names : List String) : Value → Option Key
  | text name => some (ofIndex (names.findIdx? (· == name)))
  | binary bytes => some (ofIndex (names.findIdx? fun name => Bytes.ofString name == bytes))
  | unsigned width n =>
    if width = 1 ∨ width = 8 then some (if n < names.length then .field n else .other) else none
  | _ => none
where
  ofIndex : Option Nat → Key
    | some index => .field index
    | none => .other

/-- Puts the entries of a map into the places of the fields; a field may be given once. -/
def placeEntries (names : List String) (fields : List (Option Value)) :
    List (Value × Value) → Option (List (Option Value))
  | [] => some fields
  | (key, value) :: rest => do
    match ← key.key? names with
    | .other => placeEntries names fields rest
    | .field index =>
      match fields[index]? with
      | some none => placeEntries names (fields.set index (some value)) rest
      | _ => none

/-- The fields of a record in the order of their names, each if given. A record is a map, in which other entries
do not count, or the list of its fields, in which the last ones may be missing. -/
def fields? (names : List String) : Value → Option (List (Option Value))
  | map entries => placeEntries names (names.map fun _ => none) entries
  | list items =>
    if items.length ≤ names.length then
      some (items.map some ++ List.replicate (names.length - items.length) none)
    else none
  | _ => none

end Value

end SupplyGraph
