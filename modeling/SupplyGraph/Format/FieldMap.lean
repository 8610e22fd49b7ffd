import SupplyGraph.Bytes
import Std.Data.TreeMap

/-!
Named fields with bytes, written as one record: the number of fields, then for each field its name and its
bytes, every one of them behind its length. Numbers take eight bytes, the lowest first.
-/

namespace SupplyGraph

abbrev FieldMap := Std.TreeMap String Bytes

namespace FieldMap

def writeCounted (bytes : Bytes) : Bytes := Bytes.littleEndian 8 bytes.length ++ bytes

def encode (fields : FieldMap) : Bytes :=
  Bytes.littleEndian 8 fields.size ++
    fields.toList.flatMap fun (name, data) => writeCounted (Bytes.ofString name) ++ writeCounted data

def readNumber (bytes : Bytes) : Option (Nat × Bytes) :=
  (bytes.split? 8).map fun (word, rest) => (Bytes.ofLittleEndian word, rest)

def readCounted (bytes : Bytes) : Option (Bytes × Bytes) := do
  let (length, rest) ← readNumber bytes
  rest.split? length

def readFields (fields : FieldMap) : Nat → Bytes → Option FieldMap
  | 0, _ => some fields
  | count + 1, bytes => do
    let (name, rest) ← readCounted bytes
    let name ← name.toString?
    let (data, rest) ← readCounted rest
    readFields (fields.insert name data) count rest

/-- The fields of a record; of two fields with one name the later one counts, and bytes behind the record do not
matter. -/
def decode (bytes : Bytes) : Option FieldMap := do
  let (count, rest) ← readNumber bytes
  readFields ∅ count rest

end FieldMap

end SupplyGraph
