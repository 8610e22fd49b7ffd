import Mathlib.Data.List.Basic
import SupplyGraph.Format.MessagePack
import SupplyGraph.Proofs.Format.Bytes

/-!
The format as a relation between values and their bytes. A value may have many forms; each of them is read as that
value whatever follows it, so no form is the front of another one. What is written is one of them.
-/

namespace SupplyGraph.MessagePack

structure Heads where
  mark : Nat
  room : Nat
  behind : List (UInt8 × Nat)

def texts : Heads := ⟨0xA0, 0x20, [(0xD9, 1), (0xDA, 2), (0xDB, 4)]⟩

def binaries : Heads := ⟨0, 0, [(0xC4, 1), (0xC5, 2), (0xC6, 4)]⟩

def extensions : Heads := ⟨0, 0, [(0xC7, 1), (0xC8, 2), (0xC9, 4)]⟩

def lists : Heads := ⟨0x90, 0x10, [(0xDC, 2), (0xDD, 4)]⟩

def maps : Heads := ⟨0x80, 0x10, [(0xDE, 2), (0xDF, 4)]⟩

inductive Heads.Announces (heads : Heads) (length : Nat) : Bytes → Prop
  | inMarker (fits : length < heads.room) : Announces heads length [UInt8.ofNat (heads.mark + length)]
  | behind (marker : UInt8) (width : Nat) (form : (marker, width) ∈ heads.behind) (fits : length < 256 ^ width) :
      Announces heads length (marker :: Bytes.bigEndian width length)

inductive Atom : Value → Bytes → Prop
  | null : Atom .null [0xC0]
  | bool (value : Bool) : Atom (.bool value) [if value then 0xC3 else 0xC2]
  | small (n : Nat) (fits : n < 0x80) : Atom (.unsigned 1 n) [UInt8.ofNat n]
  | unsigned (marker : UInt8) (width n : Nat) (form : (marker, width) ∈ [(0xCC, 1), (0xCD, 2), (0xCE, 4), (0xCF, 8)])
      (fits : n < 256 ^ width) : Atom (.unsigned width n) (marker :: Bytes.bigEndian width n)
  | negative (n : Nat) (fits : n < 0x20) : Atom (.signed (n - 0x20)) [UInt8.ofNat (0xE0 + n)]
  | signed (marker : UInt8) (width : Nat) (n : Int)
      (form : (marker, width) ∈ [(0xD0, 1), (0xD1, 2), (0xD2, 4), (0xD3, 8)])
      (least : -(256 ^ width : Nat) ≤ n * 2) (most : n * 2 < (256 ^ width : Nat)) :
      Atom (.signed n) (marker :: Bytes.bigEndian width (n % (256 ^ width : Nat)).toNat)
  | float (marker : UInt8) (bits : Bytes) (form : (marker, bits.length) ∈ [(0xCA, 4), (0xCB, 8)]) :
      Atom .float (marker :: bits)
  | text (head : Bytes) (content : String) (announced : texts.Announces (Bytes.ofString content).length head) :
      Atom (.text content) (head ++ Bytes.ofString content)
  | garbled (head content : Bytes) (announced : texts.Announces content.length head)
      (noText : content.toString? = none) : Atom (.binary content) (head ++ content)
  | binary (head content : Bytes) (announced : binaries.Announces content.length head) :
      Atom (.binary content) (head ++ content)

/-- The forms of a value in which containers and extensions nest up to a limit. -/
inductive Encodes : Nat → Value → Bytes → Prop
  | atom {limit : Nat} {value : Value} {bytes : Bytes} (atom : Atom value bytes) : Encodes limit value bytes
  | fixed {limit : Nat} (marker tag : UInt8) (data : Bytes)
      (form : (marker, data.length) ∈ [(0xD4, 1), (0xD5, 2), (0xD6, 4), (0xD7, 8), (0xD8, 16)]) :
      Encodes (limit + 1) (.extension tag.toNat data) (marker :: tag :: data)
  | extension {limit : Nat} (head : Bytes) (tag : UInt8) (data : Bytes)
      (announced : extensions.Announces data.length head) :
      Encodes (limit + 1) (.extension tag.toNat data) (head ++ tag :: data)
  | list {limit : Nat} (head : Bytes) (items : List Value) (parts : List Bytes)
      (announced : lists.Announces items.length head) (same : items.length = parts.length)
      (each : ∀ pair ∈ items.zip parts, Encodes limit pair.1 pair.2) :
      Encodes (limit + 1) (.list items) (head ++ parts.flatten)
  | map {limit : Nat} (head : Bytes) (entries : List (Value × Value)) (parts : List (Bytes × Bytes))
      (announced : maps.Announces entries.length head) (same : entries.length = parts.length)
      (keys : ∀ pair ∈ entries.zip parts, Encodes limit pair.1.1 pair.2.1)
      (values : ∀ pair ∈ entries.zip parts, Encodes limit pair.1.2 pair.2.2) :
      Encodes (limit + 1) (.map entries) (head ++ parts.flatMap fun part => part.1 ++ part.2)

theorem Encodes.mono {limit more : Nat} {value : Value} {bytes : Bytes} (encodes : Encodes limit value bytes)
    (le : limit ≤ more) : Encodes more value bytes := by
  induction encodes generalizing more with
  | atom atom => exact .atom atom
  | fixed marker tag data form =>
      obtain ⟨more, rfl⟩ := Nat.exists_eq_add_of_lt le
      exact .fixed marker tag data form
  | extension head tag data announced =>
      obtain ⟨more, rfl⟩ := Nat.exists_eq_add_of_lt le
      exact .extension head tag data announced
  | list head items parts announced same each ih =>
      obtain ⟨more, rfl⟩ := Nat.exists_eq_add_of_lt le
      exact .list head items parts announced same fun pair member => ih pair member (by omega)
  | map head entries parts announced same keys values keysIh valuesIh =>
      obtain ⟨more, rfl⟩ := Nat.exists_eq_add_of_lt le
      exact .map head entries parts announced same (fun pair member => keysIh pair member (by omega)) fun pair member =>
        valuesIh pair member (by omega)

theorem readWord_append {width n : Nat} (fits : n < 256 ^ width) (rest : Bytes) :
    readWord width (Bytes.bigEndian width n ++ rest) = some (n, rest) := by
  rw [readWord, Bytes.split?_append (Bytes.length_bigEndian ..), Option.map_some]
  dsimp only
  rw [Bytes.ofBigEndian_of_lt fits]

theorem toNat_marker {n : Nat} (small : n < 0x100) : (UInt8.ofNat n).toNat = n := by
  rw [UInt8.toNat_ofNat']
  omega

section

variable {item : Option (Reading Value)}

theorem readWith_announced {heads : Heads} {reader : Nat → Reading Value}
    (inMarker : ∀ n < heads.room, ∀ rest, readWith item (UInt8.ofNat (heads.mark + n) :: rest) = reader n rest)
    (behind : ∀ form ∈ heads.behind, ∀ rest, readWith item (form.1 :: rest) = withLength form.2 reader rest)
    {length : Nat} {head : Bytes} (announced : heads.Announces length head) (rest : Bytes) :
    readWith item (head ++ rest) = reader length rest := by
  cases announced with
  | inMarker fits => exact inMarker length fits rest
  | behind marker width form fits =>
      rw [List.cons_append, behind _ form, withLength, readWord_append fits]
      rfl

variable {length : Nat} {head : Bytes}

theorem readWith_text (announced : texts.Announces length head) (rest : Bytes) :
    readWith item (head ++ rest) = readText length rest := by
  refine readWith_announced (fun n small rest => ?_) (fun form listed rest => ?_) announced rest
  · have small : n < 0x20 := small
    have marker : (UInt8.ofNat (texts.mark + n)).toNat = 0xA0 + n := toNat_marker (by change 0xA0 + n < _; omega)
    rw [readWith, marker, if_neg (by omega), if_neg (by omega), if_neg (by omega), if_pos (by omega),
      Nat.add_sub_cancel_left]
  · simp only [texts, List.mem_cons, List.not_mem_nil, or_false] at listed
    rcases listed with rfl | rfl | rfl <;> rfl

theorem readWith_list (announced : lists.Announces length head) (rest : Bytes) :
    readWith item (head ++ rest) = readList item length rest := by
  refine readWith_announced (fun n small rest => ?_) (fun form listed rest => ?_) announced rest
  · have small : n < 0x10 := small
    have marker : (UInt8.ofNat (lists.mark + n)).toNat = 0x90 + n := toNat_marker (by change 0x90 + n < _; omega)
    rw [readWith, marker, if_neg (by omega), if_neg (by omega), if_pos (by omega), Nat.add_sub_cancel_left]
  · simp only [lists, List.mem_cons, List.not_mem_nil, or_false] at listed
    rcases listed with rfl | rfl <;> rfl

theorem readWith_map (announced : maps.Announces length head) (rest : Bytes) :
    readWith item (head ++ rest) = readMap item length rest := by
  refine readWith_announced (fun n small rest => ?_) (fun form listed rest => ?_) announced rest
  · have small : n < 0x10 := small
    have marker : (UInt8.ofNat (maps.mark + n)).toNat = 0x80 + n := toNat_marker (by change 0x80 + n < _; omega)
    rw [readWith, marker, if_neg (by omega), if_pos (by omega), Nat.add_sub_cancel_left]
  · simp only [maps, List.mem_cons, List.not_mem_nil, or_false] at listed
    rcases listed with rfl | rfl <;> rfl

theorem readWith_binary (announced : binaries.Announces length head) (rest : Bytes) :
    readWith item (head ++ rest) = readBinary length rest := by
  refine readWith_announced (fun n small => absurd small n.not_lt_zero) (fun form listed rest => ?_) announced rest
  simp only [binaries, List.mem_cons, List.not_mem_nil, or_false] at listed
  rcases listed with rfl | rfl | rfl <;> rfl

theorem readWith_extension (announced : extensions.Announces length head) (rest : Bytes) :
    readWith item (head ++ rest) = readExtension item length rest := by
  refine readWith_announced (fun n small => absurd small n.not_lt_zero) (fun form listed rest => ?_) announced rest
  simp only [extensions, List.mem_cons, List.not_mem_nil, or_false] at listed
  rcases listed with rfl | rfl | rfl <;> rfl

theorem readUnsigned_append {width n : Nat} (fits : n < 256 ^ width) (rest : Bytes) :
    readUnsigned width (Bytes.bigEndian width n ++ rest) = some (.unsigned width n, rest) := by
  rw [readUnsigned, readWord_append fits, Option.map_some]

theorem readSigned_append {width : Nat} {n : Int} (least : -(256 ^ width : Nat) ≤ n * 2)
    (most : n * 2 < (256 ^ width : Nat)) (rest : Bytes) :
    readSigned width (Bytes.bigEndian width (n % (256 ^ width : Nat)).toNat ++ rest) = some (.signed n, rest) := by
  have size : (0 : Int) < (256 ^ width : Nat) := Int.natCast_pos.mpr (Nat.pow_pos (by decide))
  have below := Int.emod_lt_of_pos n size
  have word : ((n % (256 ^ width : Nat)).toNat : Int) = n % (256 ^ width : Nat) :=
    Int.toNat_of_nonneg (Int.emod_nonneg _ (Int.ne_of_gt size))
  have signed : ((n % (256 ^ width : Nat)).toNat : Int).bmod (256 ^ width) = n := by
    rw [word, Int.emod_bmod, Int.bmod_eq_of_le_mul_two least most]
  rw [readSigned, readWord_append (by omega), Option.map_some]
  exact congrArg (fun n => some (Value.signed n, rest)) signed

theorem readWith_atom {value : Value} {bytes : Bytes} (atom : Atom value bytes) (rest : Bytes) :
    readWith item (bytes ++ rest) = some (value, rest) := by
  cases atom with
  | null => rfl
  | bool value => cases value <;> rfl
  | small n fits =>
      rw [List.singleton_append, readWith, toNat_marker (by omega)]
      exact if_pos fits
  | unsigned marker width n form fits =>
      have read := readUnsigned_append fits rest
      simp only [List.mem_cons, Prod.mk.injEq, List.not_mem_nil, or_false] at form
      rcases form with ⟨rfl, rfl⟩ | ⟨rfl, rfl⟩ | ⟨rfl, rfl⟩ | ⟨rfl, rfl⟩ <;> exact read
  | negative n fits =>
      rw [List.singleton_append, readWith, toNat_marker (by omega), if_neg (by omega), if_neg (by omega),
        if_neg (by omega), if_neg (by omega), if_neg (by omega)]
      congr 3
      omega
  | signed marker width n form least most =>
      have read := readSigned_append least most rest
      simp only [List.mem_cons, Prod.mk.injEq, List.not_mem_nil, or_false] at form
      rcases form with ⟨rfl, rfl⟩ | ⟨rfl, rfl⟩ | ⟨rfl, rfl⟩ | ⟨rfl, rfl⟩ <;> exact read
  | float marker bits form =>
      have read : readFloat bits.length (bits ++ rest) = some (.float, rest) := by
        rw [readFloat, Bytes.split?_append rfl, Option.map_some]
      simp only [List.mem_cons, Prod.mk.injEq, List.not_mem_nil, or_false] at form
      rcases form with ⟨rfl, width⟩ | ⟨rfl, width⟩ <;> rw [width] at read <;> exact read
  | text head content announced =>
      rw [List.append_assoc, readWith_text announced, readText, Bytes.split?_append rfl, Option.map_some]
      dsimp only
      rw [Value.ofContent, Bytes.toString?_ofString]
  | garbled head content announced noText =>
      rw [List.append_assoc, readWith_text announced, readText, Bytes.split?_append rfl, Option.map_some]
      dsimp only
      rw [Value.ofContent, noText]
  | binary head content announced =>
      rw [List.append_assoc, readWith_binary announced, readBinary, Bytes.split?_append rfl, Option.map_some]

end

theorem readMany_each {α : Type} {item : Reading α} {items : List α} {parts : List Bytes}
    (same : items.length = parts.length)
    (each : ∀ pair ∈ items.zip parts, ∀ rest, item (pair.2 ++ rest) = some (pair.1, rest)) (rest : Bytes) :
    readMany item items.length (parts.flatten ++ rest) = some (items, rest) := by
  induction items generalizing parts with
  | nil =>
      obtain rfl := List.length_eq_zero_iff.mp same.symm
      rfl
  | cons first items ih =>
      obtain _ | ⟨part, parts⟩ := parts
      · cases same
      obtain ⟨here, later⟩ := List.forall_mem_cons.mp each
      have others := ih (Nat.succ.inj same) later
      simp only [List.length_cons, readMany, List.flatten_cons, List.append_assoc, here, others, bind, Option.bind]

theorem readExtension_append (item : Reading Value) (tag : UInt8) (data rest : Bytes) :
    readExtension (some item) data.length (tag :: data ++ rest) = some (.extension tag.toNat data, rest) := by
  have word : readWord 1 (tag :: (data ++ rest)) = some (tag.toNat, data ++ rest) := by
    have read : Bytes.split? 1 (tag :: (data ++ rest)) = some ([tag], data ++ rest) :=
      @Bytes.split?_append [tag] _ 1 rfl
    rw [readWord, read]
    rfl
  simp only [readExtension, List.cons_append, word, bind, Option.bind, Bytes.split?_append]

theorem exists_readNested (limit : Nat) : ∃ item, readNested limit = readWith item := by
  cases limit with
  | zero => exact ⟨none, rfl⟩
  | succ limit => exact ⟨some (readNested limit), rfl⟩

theorem readNested_encodes {limit : Nat} {value : Value} {bytes : Bytes} (encodes : Encodes limit value bytes)
    (rest : Bytes) : readNested limit (bytes ++ rest) = some (value, rest) := by
  induction encodes generalizing rest with
  | @atom limit value bytes atom =>
      obtain ⟨item, reading⟩ := exists_readNested limit
      rw [reading, readWith_atom atom]
  | @fixed limit marker tag data form =>
      have read := readExtension_append (readNested limit) tag data rest
      simp only [List.mem_cons, Prod.mk.injEq, List.not_mem_nil, or_false] at form
      rcases form with ⟨rfl, size⟩ | ⟨rfl, size⟩ | ⟨rfl, size⟩ | ⟨rfl, size⟩ | ⟨rfl, size⟩ <;> rw [size] at read <;>
        exact read
  | @extension limit head tag data announced =>
      rw [List.append_assoc, readNested, readWith_extension announced]
      exact readExtension_append (readNested limit) tag data rest
  | @list limit head items parts announced same each ih =>
      have read := readMany_each same ih rest
      rw [List.append_assoc, readNested, readWith_list announced]
      simp only [readList, bind, Option.bind, read]
  | @map limit head entries parts announced same keys values keysIh valuesIh =>
      have read : readMany (readEntry (readNested limit)) entries.length
          (parts.flatMap (fun part => part.1 ++ part.2) ++ rest) = some (entries, rest) := by
        refine readMany_each (by rwa [List.length_map]) (fun pair member rest => ?_) rest
        rw [List.zip_map_right, List.mem_map] at member
        obtain ⟨pair, member, rfl⟩ := member
        simp only [Prod.map, id, readEntry, List.append_assoc, keysIh pair member, valuesIh pair member, bind,
          Option.bind]
      rw [List.append_assoc, readNested, readWith_map announced]
      simp only [readMap, bind, Option.bind, read]

theorem Encodes.unique {limit other : Nat} {first second : Value} {bytes front rest after : Bytes}
    (encodes : Encodes limit first bytes) (encodesOther : Encodes other second front)
    (same : bytes ++ rest = front ++ after) : first = second ∧ bytes = front ∧ rest = after := by
  have read := readNested_encodes (encodes.mono (Nat.le_max_left limit other)) rest
  rw [same, readNested_encodes (encodesOther.mono (Nat.le_max_right limit other))] at read
  obtain ⟨rfl, rfl⟩ := Prod.mk.inj (Option.some.inj read)
  exact ⟨rfl, List.append_cancel_right same, rfl⟩

def wordSize (n : Nat) : Nat :=
  if n < 0x100 then 1 else if n < 0x10000 then 2 else if n < 0x100000000 then 4 else 8

mutual

def valueOf : Document → Value
  | .bool value => .bool value
  | .natural n => .unsigned (wordSize n) n
  | .text content => .text content
  | .list items => .list (valuesOf items)
  | .record fields => .map (entriesOf fields)

def valuesOf : List Document → List Value
  | [] => []
  | item :: rest => valueOf item :: valuesOf rest

def entriesOf : List (String × Document) → List (Value × Value)
  | [] => []
  | (name, value) :: rest => (.text name, valueOf value) :: entriesOf rest

end

/-- Documents that there is a form for, as their lengths have four bytes and their numbers eight; lists and records
nest up to a limit. -/
inductive Fits : Nat → Document → Prop
  | bool {limit : Nat} (value : Bool) : Fits limit (.bool value)
  | natural {limit n : Nat} (small : n < 256 ^ 8) : Fits limit (.natural n)
  | text {limit : Nat} {content : String} (short : (Bytes.ofString content).length < 256 ^ 4) :
      Fits limit (.text content)
  | list {limit : Nat} {items : List Document} (short : items.length < 256 ^ 4)
      (each : ∀ item ∈ items, Fits limit item) : Fits (limit + 1) (.list items)
  | record {limit : Nat} {fields : List (String × Document)} (short : fields.length < 256 ^ 4)
      (names : ∀ field ∈ fields, (Bytes.ofString field.1).length < 256 ^ 4)
      (each : ∀ field ∈ fields, Fits limit field.2) : Fits (limit + 1) (.record fields)

theorem Fits.named {limit : Nat} {fields : List (String × Document)} (names : List String)
    (isNames : fields.map Prod.fst = names)
    (short : names.length < 256 ^ 4 ∧ ∀ name ∈ names, (Bytes.ofString name).length < 256 ^ 4)
    (each : fields.Forall fun field => Fits limit field.2) : Fits (limit + 1) (.record fields) := by
  subst isNames
  rw [List.length_map] at short
  exact .record short.1 (fun field member => short.2 field.1 (List.mem_map_of_mem member))
    (List.forall_iff_forall_mem.mp each)

theorem atom_writeNatural {n : Nat} (small : n < 256 ^ 8) : Atom (.unsigned (wordSize n) n) (writeNatural n) := by
  unfold wordSize writeNatural
  by_cases tiny : n < 0x80
  · rw [if_pos tiny, if_pos (by omega)]
    exact .small n tiny
  rw [if_neg tiny]
  split_ifs with one two four
  · exact .unsigned 0xCC 1 n (by decide) one
  · exact .unsigned 0xCD 2 n (by decide) two
  · exact .unsigned 0xCE 4 n (by decide) four
  · exact .unsigned 0xCF 8 n (by decide) small

theorem atom_writeText {text : String} (short : (Bytes.ofString text).length < 256 ^ 4) :
    Atom (.text text) (writeText text) := by
  unfold writeText
  dsimp only
  split_ifs with tiny one two
  · exact .text [_] text (.inMarker tiny)
  · exact .text _ text (.behind 0xD9 1 (by decide) one)
  · exact .text _ text (.behind 0xDA 2 (by decide) two)
  · exact .text _ text (.behind 0xDB 4 (by decide) short)

theorem announces_writeListLength {length : Nat} (short : length < 256 ^ 4) :
    lists.Announces length (writeListLength length) := by
  unfold writeListLength
  split_ifs with tiny two
  · exact .inMarker tiny
  · exact .behind 0xDC 2 (by decide) two
  · exact .behind 0xDD 4 (by decide) short

theorem announces_writeMapLength {length : Nat} (short : length < 256 ^ 4) :
    maps.Announces length (writeMapLength length) := by
  unfold writeMapLength
  split_ifs with tiny two
  · exact .inMarker tiny
  · exact .behind 0xDE 2 (by decide) two
  · exact .behind 0xDF 4 (by decide) short

theorem valuesOf_eq (items : List Document) : valuesOf items = items.map valueOf := by
  induction items with
  | nil => rfl
  | cons item items ih => rw [valuesOf, ih, List.map_cons]

theorem entriesOf_eq (fields : List (String × Document)) :
    entriesOf fields = fields.map fun field => (.text field.1, valueOf field.2) := by
  induction fields with
  | nil => rfl
  | cons field fields ih => rw [entriesOf, ih, List.map_cons]

theorem valuesOf_map {α : Type} {write : α → Document} {value : α → Value}
    (each : ∀ item, valueOf (write item) = value item) (items : List α) :
    valuesOf (items.map write) = items.map value := by
  rw [valuesOf_eq, List.map_map]
  exact List.map_congr_left fun item _ => each item

theorem writeItems_eq (items : List Document) : writeItems items = (items.map write).flatten := by
  induction items with
  | nil => rfl
  | cons item items ih => rw [writeItems, ih, List.map_cons, List.flatten_cons]

theorem writeFields_eq (fields : List (String × Document)) :
    writeFields fields =
      (fields.map fun field => (writeText field.1, write field.2)).flatMap fun part => part.1 ++ part.2 := by
  induction fields with
  | nil => rfl
  | cons field fields ih => rw [writeFields, ih, List.map_cons, List.flatMap_cons]

theorem encodes_write {limit : Nat} {document : Document} (fits : Fits limit document) :
    Encodes limit (valueOf document) (write document) := by
  induction fits with
  | bool value =>
      rw [valueOf]
      cases value <;> exact .atom (.bool _)
  | natural small =>
      rw [valueOf, write]
      exact .atom (atom_writeNatural small)
  | text short =>
      rw [valueOf, write]
      exact .atom (atom_writeText short)
  | @list limit items short each ih =>
      rw [valueOf, write, valuesOf_eq, writeItems_eq]
      refine .list _ _ _ ?_ (by simp) fun pair member => ?_
      · rw [List.length_map]
        exact announces_writeListLength short
      · rw [List.zip_map', List.mem_map] at member
        obtain ⟨item, member, rfl⟩ := member
        exact ih item member
  | @record limit fields short names each ih =>
      rw [valueOf, write, entriesOf_eq, writeFields_eq]
      refine .map _ _ _ ?_ (by simp) (fun pair member => ?_) fun pair member => ?_
      · rw [List.length_map]
        exact announces_writeMapLength short
      · rw [List.zip_map', List.mem_map] at member
        obtain ⟨field, member, rfl⟩ := member
        exact .atom (atom_writeText (names field member))
      · rw [List.zip_map', List.mem_map] at member
        obtain ⟨field, member, rfl⟩ := member
        exact ih field member

end SupplyGraph.MessagePack
