import SupplyGraph.Format.Record
import SupplyGraph.Proofs.Format.Base64
import SupplyGraph.Proofs.Format.Bitmap
import SupplyGraph.Proofs.Format.Json

/-!
Records are read back from their JSON text.
-/

namespace SupplyGraph

theorem Bitmap.encode_ne_nil (bitmap : Bitmap) : bitmap.encode ≠ [] := by
  have cookie : bitmap.encode.head? = some 0x3A := rfl
  intro empty
  rw [empty] at cookie
  cases cookie

theorem Bitmap.ofText?_encode {bytes : Bytes} (nonempty : bytes ≠ []) :
    Bitmap.ofText? (Base64.encode bytes) = (Bitmap.decode bytes).toOption := by
  have read : Base64.decode (Base64.encode bytes) = some bytes := Base64.decode_encode bytes
  have written : (Base64.encode bytes).isEmpty = false := by
    rw [Bool.eq_false_iff, ne_eq, String.isEmpty_iff]
    intro empty
    rw [empty] at read
    exact nonempty (Option.some.inj read).symm
  unfold Bitmap.ofText?
  rw [written, read]
  rfl

theorem Bitmap.ofText?_toText {bitmap : Bitmap} (plain : bitmap.Plain) :
    Bitmap.ofText? bitmap.toText = some bitmap := by
  rw [Bitmap.toText, Bitmap.ofText?_encode bitmap.encode_ne_nil, Bitmap.decode_encode plain]
  rfl

theorem Value.id?_unsigned (width : Nat) (id : NodeId) : (Value.unsigned width id.toNat).id? = some id := by
  have small : id.toNat < UInt32.size := id.toNat_lt
  have below : (Value.unsigned width id.toNat).naturalBelow? UInt32.size = some id.toNat := by
    rw [Value.naturalBelow?, Value.natural?, Option.filter_some, if_pos (decide_eq_true small)]
  rw [Value.id?, below, Option.map_some, UInt32.ofNat_toNat]

theorem Value.id?_integerValue (id : NodeId) : (Json.integerValue false id.toNat).id? = some id := by
  have unsigned : Json.integerValue false id.toNat = .unsigned 8 id.toNat :=
    if_pos (Nat.lt_trans id.toNat_lt (by decide))
  rw [unsigned, id?_unsigned]

theorem readRecord_write_eq {α : Type} {ofValue? : Value → Option α} {what : String} {document : Document}
    (textKeys : (Json.valueOf document).hasTextKeys) :
    readRecord ofValue? what (Json.write document) =
      (ofValue? (Json.valueOf document)).elim (.error (.json s!"malformed {what} record")) .ok := by
  unfold readRecord
  rw [Json.read_write, Option.filter_some, if_pos textKeys, Option.bind_some]
  cases ofValue? (Json.valueOf document) <;> rfl

theorem readRecord_write_eq_ok {α : Type} {ofValue? : Value → Option α} {what : String} {document : Document} {record : α}
    (textKeys : (Json.valueOf document).hasTextKeys) :
    readRecord ofValue? what (Json.write document) = .ok record ↔ ofValue? (Json.valueOf document) = some record := by
  rw [readRecord_write_eq textKeys]
  cases ofValue? (Json.valueOf document) with
  | none => exact ⟨nofun, nofun⟩
  | some found => rw [Option.elim_some, Except.ok.injEq, Option.some.injEq]

theorem Node.fields?_toDocument (node : Node) : (Json.valueOf node.toDocument).fields? Node.fieldNames =
    some [some (Json.integerValue false node.id.toNat), some (.text node.type), some (.text node.name),
      some (.text (Base64.encode node.metadata)), some (.text node.children.toText),
      some (.text node.parents.toText)] := rfl

theorem Node.ofValue?_of_fields {node : Node} {value id : Value} (fields : value.fields? fieldNames =
      some [some id, some (.text node.type), some (.text node.name), some (.text (Base64.encode node.metadata)),
        some (.text node.children.toText), some (.text node.parents.toText)])
    (isId : id.id? = some node.id) : ofValue? value = do
      return { node with
        children := ← Bitmap.ofText? node.children.toText
        parents := ← Bitmap.ofText? node.parents.toText } := by
  unfold ofValue?
  rw [fields]
  simp only [bind, Option.bind, isId, Value.text?, Value.optionalText?, Base64.decode_encode]
  rfl

theorem Node.ofValue?_toDocument (node : Node) : ofValue? (Json.valueOf node.toDocument) = do
    return { node with
      children := ← Bitmap.ofText? node.children.toText
      parents := ← Bitmap.ofText? node.parents.toText } :=
  ofValue?_of_fields node.fields?_toDocument (Value.id?_integerValue node.id)

theorem Node.ofJson_toJson {node : Node} (plain : node.Plain) : Node.ofJson node.toJson = .ok node := by
  apply (readRecord_write_eq_ok rfl).2
  rw [node.ofValue?_toDocument, Bitmap.ofText?_toText plain.1, Bitmap.ofText?_toText plain.2]
  rfl

theorem Node.ofJson_toJson_ne_ok {node other : Node} {fault : Bitmap.Fault}
    (unreadable : Bitmap.decode node.children.encode = .error fault) : Node.ofJson node.toJson ≠ .ok other := by
  have children : Bitmap.ofText? node.children.toText = none := by
    rw [Bitmap.toText, Bitmap.ofText?_encode node.children.encode_ne_nil, unreadable]
    rfl
  rw [Node.ofJson, Node.toJson, readRecord_write_eq rfl, node.ofValue?_toDocument, children]
  exact nofun

theorem Closures.fields?_toDocument (closures : Closures) : (Json.valueOf closures.toDocument).fields? fieldNames =
    some [some (Json.integerValue false closures.id.toNat), some (.text closures.ancestors.toText),
      some (.text closures.descendants.toText)] := rfl

theorem Closures.ofValue?_toDocument (closures : Closures) : ofValue? (Json.valueOf closures.toDocument) = do
    return { closures with
      ancestors := ← Bitmap.ofText? closures.ancestors.toText
      descendants := ← Bitmap.ofText? closures.descendants.toText } := by
  unfold ofValue?
  rw [closures.fields?_toDocument]
  simp only [bind, Option.bind, Value.id?_integerValue, Value.text?, Value.optionalText?]
  rfl

theorem Closures.ofJson_toJson {closures : Closures} (plain : closures.Plain) :
    Closures.ofJson closures.toJson = .ok closures := by
  apply (readRecord_write_eq_ok rfl).2
  rw [closures.ofValue?_toDocument, Bitmap.ofText?_toText plain.1, Bitmap.ofText?_toText plain.2]
  rfl

end SupplyGraph
