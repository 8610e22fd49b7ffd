import SupplyGraph.Failure
import SupplyGraph.Format.Base64
import SupplyGraph.Format.Bitmap
import SupplyGraph.Format.Json
import SupplyGraph.Graph.Node

/-!
The records of nodes and of closures. Byte strings are in base64, and sets of ids are bitmaps in base64.
-/

namespace SupplyGraph

def Bitmap.toText (bitmap : Bitmap) : String := Base64.encode bitmap.encode

/-- The bitmap that a text holds; an empty text is the empty one. -/
def Bitmap.ofText? (text : String) : Option Bitmap :=
  if text.isEmpty then some ∅ else do (Bitmap.decode (← Base64.decode text)).toOption

namespace Value

def id? (value : Value) : Option NodeId := (value.naturalBelow? UInt32.size).map UInt32.ofNat

def optionalText? : Option Value → Option String
  | none => some ""
  | some value => value.text?

def hasTextKeys : Value → Bool
  | map entries => entries.all fun (key, _) => key.isText
  | _ => true

end Value

namespace Node

def fieldNames : List String := ["ID", "type", "name", "metadata", "childData", "parentData"]

def toDocument (node : Node) : Document :=
  .record [("ID", .natural node.id.toNat), ("type", .text node.type), ("name", .text node.name),
    ("metadata", .text (Base64.encode node.metadata)), ("childData", .text node.children.toText),
    ("parentData", .text node.parents.toText)]

def ofValue? (value : Value) : Option Node := do
  match ← value.fields? fieldNames with
  | [some id, some type, some name, metadata, children, parents] =>
    some {
      id := ← id.id?
      type := ← type.text?
      name := ← name.text?
      metadata := ← Base64.decode (← Value.optionalText? metadata)
      children := ← Bitmap.ofText? (← Value.optionalText? children)
      parents := ← Bitmap.ofText? (← Value.optionalText? parents) }
  | _ => none

def toJson (node : Node) : Bytes := Json.write node.toDocument

end Node

namespace Closures

def fieldNames : List String := ["ID", "allParentsData", "allChildrenData"]

def toDocument (closures : Closures) : Document :=
  .record [("ID", .natural closures.id.toNat), ("allParentsData", .text closures.ancestors.toText),
    ("allChildrenData", .text closures.descendants.toText)]

def ofValue? (value : Value) : Option Closures := do
  match ← value.fields? fieldNames with
  | [some id, ancestors, descendants] =>
    some {
      id := ← id.id?
      ancestors := ← Bitmap.ofText? (← Value.optionalText? ancestors)
      descendants := ← Bitmap.ofText? (← Value.optionalText? descendants) }
  | _ => none

def toJson (closures : Closures) : Bytes := Json.write closures.toDocument

end Closures

def readRecord {α : Type} (ofValue? : Value → Option α) (what : String) (bytes : Bytes) : Outcome α :=
  match ((Json.read bytes).filter Value.hasTextKeys).bind ofValue? with
  | some record => .ok record
  | none => .error (.json s!"malformed {what} record")

def Node.ofJson (bytes : Bytes) : Outcome Node := readRecord Node.ofValue? "node" bytes

def Closures.ofJson (bytes : Bytes) : Outcome Closures := readRecord Closures.ofValue? "closure" bytes

end SupplyGraph
