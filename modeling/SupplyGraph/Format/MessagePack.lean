import SupplyGraph.Format.Value

/-!
MessagePack. Reading takes one value off the front of the bytes; containers nest up to a limit. Writing uses the
shortest form of every number, length and string.
-/

namespace SupplyGraph.MessagePack

/-! ## Reading -/

abbrev Reading (α : Type) := Bytes → Option (α × Bytes)

def readWord (count : Nat) : Reading Nat := fun bytes =>
  (bytes.split? count).map fun (word, rest) => (Bytes.ofBigEndian word, rest)

def readSigned (count : Nat) : Reading Value := fun bytes =>
  (readWord count bytes).map fun (n, rest) => (.signed ((n : Int).bmod (Nat.pow 256 count)), rest)

def readUnsigned (count : Nat) : Reading Value := fun bytes =>
  (readWord count bytes).map fun (n, rest) => (.unsigned count n, rest)

def readFloat (count : Nat) : Reading Value := fun bytes =>
  (bytes.split? count).map fun (_, rest) => (.float, rest)

def readText (count : Nat) : Reading Value := fun bytes =>
  (bytes.split? count).map fun (content, rest) => (.ofContent content, rest)

def readBinary (count : Nat) : Reading Value := fun bytes =>
  (bytes.split? count).map fun (content, rest) => (.binary content, rest)

/-- An extension nests as deep as a container. -/
def readExtension (item : Option (Reading Value)) (count : Nat) : Reading Value := fun bytes => do
  let _ ← item
  let (tag, rest) ← readWord 1 bytes
  let (data, rest) ← rest.split? count
  some (.extension tag data, rest)

def withLength (count : Nat) (body : Nat → Reading Value) : Reading Value := fun bytes => do
  let (length, rest) ← readWord count bytes
  body length rest

def readMany {α : Type} (item : Reading α) : Nat → Reading (List α)
  | 0, bytes => some ([], bytes)
  | count + 1, bytes => do
    let (first, rest) ← item bytes
    let (others, rest) ← readMany item count rest
    some (first :: others, rest)

def readEntry (item : Reading Value) : Reading (Value × Value) := fun bytes => do
  let (key, rest) ← item bytes
  let (value, rest) ← item rest
  some ((key, value), rest)

/-- Items are read by `item`; without it a container is nested too deeply. -/
def readList (item : Option (Reading Value)) (count : Nat) : Reading Value := fun bytes => do
  let (items, rest) ← readMany (← item) count bytes
  some (.list items, rest)

def readMap (item : Option (Reading Value)) (count : Nat) : Reading Value := fun bytes => do
  let (entries, rest) ← readMany (readEntry (← item)) count bytes
  some (.map entries, rest)

def readMarked (item : Option (Reading Value)) (marker : Nat) : Reading Value :=
  match marker with
  | 0xC0 => fun bytes => some (.null, bytes)
  | 0xC2 => fun bytes => some (.bool false, bytes)
  | 0xC3 => fun bytes => some (.bool true, bytes)
  | 0xC4 => withLength 1 readBinary
  | 0xC5 => withLength 2 readBinary
  | 0xC6 => withLength 4 readBinary
  | 0xC7 => withLength 1 (readExtension item)
  | 0xC8 => withLength 2 (readExtension item)
  | 0xC9 => withLength 4 (readExtension item)
  | 0xCA => readFloat 4
  | 0xCB => readFloat 8
  | 0xCC => readUnsigned 1
  | 0xCD => readUnsigned 2
  | 0xCE => readUnsigned 4
  | 0xCF => readUnsigned 8
  | 0xD0 => readSigned 1
  | 0xD1 => readSigned 2
  | 0xD2 => readSigned 4
  | 0xD3 => readSigned 8
  | 0xD4 => readExtension item 1
  | 0xD5 => readExtension item 2
  | 0xD6 => readExtension item 4
  | 0xD7 => readExtension item 8
  | 0xD8 => readExtension item 16
  | 0xD9 => withLength 1 readText
  | 0xDA => withLength 2 readText
  | 0xDB => withLength 4 readText
  | 0xDC => withLength 2 (readList item)
  | 0xDD => withLength 4 (readList item)
  | 0xDE => withLength 2 (readMap item)
  | 0xDF => withLength 4 (readMap item)
  | _ => fun _ => none

def readWith (item : Option (Reading Value)) : Reading Value
  | [] => none
  | byte :: rest =>
    let marker := byte.toNat
    if marker < 0x80 then some (.unsigned 1 marker, rest)
    else if marker < 0x90 then readMap item (marker - 0x80) rest
    else if marker < 0xA0 then readList item (marker - 0x90) rest
    else if marker < 0xC0 then readText (marker - 0xA0) rest
    else if marker < 0xE0 then readMarked item marker rest
    else some (.signed ((marker : Int) - 0x100), rest)

def readNested : (limit : Nat) → Reading Value
  | 0 => readWith none
  | limit + 1 => readWith (some (readNested limit))

def nestingLimit : Nat := 1023

def read : Reading Value := readNested nestingLimit

/-! ## Writing -/

def writeNatural (n : Nat) : Bytes :=
  if n < 0x80 then [UInt8.ofNat n]
  else if n < 0x100 then 0xCC :: Bytes.bigEndian 1 n
  else if n < 0x10000 then 0xCD :: Bytes.bigEndian 2 n
  else if n < 0x100000000 then 0xCE :: Bytes.bigEndian 4 n
  else 0xCF :: Bytes.bigEndian 8 n

def writeText (text : String) : Bytes :=
  let content := Bytes.ofString text
  let length := content.length
  if length < 0x20 then UInt8.ofNat (0xA0 + length) :: content
  else if length < 0x100 then 0xD9 :: Bytes.bigEndian 1 length ++ content
  else if length < 0x10000 then 0xDA :: Bytes.bigEndian 2 length ++ content
  else 0xDB :: Bytes.bigEndian 4 length ++ content

def writeListLength (length : Nat) : Bytes :=
  if length < 0x10 then [UInt8.ofNat (0x90 + length)]
  else if length < 0x10000 then 0xDC :: Bytes.bigEndian 2 length
  else 0xDD :: Bytes.bigEndian 4 length

def writeMapLength (length : Nat) : Bytes :=
  if length < 0x10 then [UInt8.ofNat (0x80 + length)]
  else if length < 0x10000 then 0xDE :: Bytes.bigEndian 2 length
  else 0xDF :: Bytes.bigEndian 4 length

mutual

def write : Document → Bytes
  | .bool true => [0xC3]
  | .bool false => [0xC2]
  | .natural n => writeNatural n
  | .text content => writeText content
  | .list items => writeListLength items.length ++ writeItems items
  | .record fields => writeMapLength fields.length ++ writeFields fields

def writeItems : List Document → Bytes
  | [] => []
  | item :: rest => write item ++ writeItems rest

def writeFields : List (String × Document) → Bytes
  | [] => []
  | (name, value) :: rest => writeText name ++ write value ++ writeFields rest

end

end SupplyGraph.MessagePack
