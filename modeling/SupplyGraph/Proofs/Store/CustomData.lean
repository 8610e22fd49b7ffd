import SupplyGraph.Proofs.Engine.Framing
import SupplyGraph.Proofs.Format.FieldMap

/-!
Putting a field changes the fields of one slot. In a memory store every tag and key have a slot of their own; in a
persistent store the slots are the joined keys, which tags with a zero character in them may share.
-/

namespace SupplyGraph

/-- A store that keeps the fields of a tag and a key in a slot. -/
class SlottedGraphStore (σ : Type) [GraphStore σ] where
  Slot : Type
  slot : String → String → Slot
  /-- The fields can be read once they have been written. -/
  Durable : FieldMap → Prop
  fields_empty : ∀ tag key, GraphStore.fields tag key (GraphStore.empty : σ) = .ok ∅
  putField : ∀ {store : σ} {tag key field : String} {data : Bytes} {before : FieldMap},
    GraphStore.fields tag key store = .ok before → Durable (before.insert field data) →
    ∃ changed, GraphStore.putField tag key field data store = .ok changed ∧ ∀ other otherKey,
      (slot other otherKey = slot tag key → ∃ after, GraphStore.fields other otherKey changed = .ok after ∧
        ∀ name : String, after[name]? = (before.insert field data)[name]?) ∧
      (slot other otherKey ≠ slot tag key →
        GraphStore.fields other otherKey changed = GraphStore.fields other otherKey store)

namespace MemoryStore

theorem fields_putField (store : MemoryStore) (tag key field : String) (data : Bytes) (other otherKey : String) :
    (store.putField tag key field data).fields other otherKey =
      if other = tag ∧ otherKey = key then (store.fields tag key).insert field data
      else store.fields other otherKey := by
  by_cases sameTag : tag = other
  · by_cases sameKey : key = otherKey
    · simp [fields, putField, sameTag, sameKey]
    · simp [fields, putField, sameTag, sameKey, Ne.symm sameKey, Std.TreeMap.getD_insert]
  · simp [fields, putField, sameTag, Ne.symm sameTag, Std.TreeMap.getD_insert]

instance : SlottedGraphStore MemoryStore where
  Slot := String × String
  slot := Prod.mk
  Durable _ := True
  fields_empty _ _ := rfl
  putField := by
    intro store tag key field data before read _
    obtain rfl := Except.ok.inj read
    refine ⟨store.putField tag key field data, rfl, fun other otherKey => ⟨fun same => ?_, fun different => ?_⟩⟩
    · obtain ⟨rfl, rfl⟩ := Prod.mk.inj same
      refine ⟨_, rfl, fun name => ?_⟩
      rw [fields_putField, if_pos ⟨rfl, rfl⟩]
    · change Except.ok ((store.putField tag key field data).fields other otherKey) = _
      rw [fields_putField, if_neg fun same => different (Prod.ext same.1 same.2)]
      rfl

instance : DecidableEq (SlottedGraphStore.Slot MemoryStore) := inferInstanceAs (DecidableEq (String × String))

end MemoryStore

namespace PersistentStore

theorem fields_of_record {store : PersistentStore} {tag key : String} {fields found : FieldMap}
    (stored : store.custom[customKey tag key]? = some (FieldMap.encode fields))
    (decoded : FieldMap.decode (FieldMap.encode fields) = some found) : store.fields tag key = .ok found := by
  simp only [PersistentStore.fields, stored, decoded]

instance : SlottedGraphStore PersistentStore where
  Slot := Bytes
  slot := customKey
  Durable := FieldMap.Fits
  fields_empty _ _ := rfl
  putField := by
    intro store tag key field data before read fits
    obtain ⟨after, decoded, same⟩ := FieldMap.decode_encode fits
    refine ⟨_, putField_eq_ok.2 ⟨before, read, rfl⟩, fun other otherKey => ⟨fun shared => ?_, fun apart => ?_⟩⟩
    · exact ⟨after, fields_of_record (by simp [shared]) decoded, same⟩
    · change PersistentStore.fields other otherKey _ = store.fields other otherKey
      simp [PersistentStore.fields, Std.TreeMap.getElem?_insert, Ne.symm apart]

instance : DecidableEq (SlottedGraphStore.Slot PersistentStore) := inferInstanceAs (DecidableEq Bytes)

end PersistentStore

namespace Bytes

theorem zero_ne_ofNat {n : Nat} (positive : 0 < n) (small : n < 256) : 0 ≠ UInt8.ofNat n := by
  intro zero
  have same := congrArg UInt8.toNat zero
  rw [UInt8.toNat_ofNat', Nat.mod_eq_of_lt small] at same
  exact Nat.ne_of_lt positive same

theorem zero_not_mem_utf8EncodeChar {c : Char} (nonzero : c ≠ '\x00') : 0 ∉ String.utf8EncodeChar c := by
  have positive : 0 < c.val.toNat := by
    refine Nat.pos_of_ne_zero fun zero => nonzero ?_
    exact Char.ext (UInt32.toNat_inj.1 zero)
  unfold String.utf8EncodeChar
  dsimp only
  generalize c.val.toNat = n at positive
  split_ifs <;> simp only [List.mem_cons, List.not_mem_nil, or_false, not_or]
  case pos one => exact zero_ne_ofNat positive (by omega)
  all_goals repeat' apply And.intro
  all_goals exact zero_ne_ofNat (by omega) (by omega)

theorem zero_not_mem_ofString {text : String} (nonzero : '\x00' ∉ text.toList) : (0 : UInt8) ∉ ofString text := by
  rw [← String.ofList_toList (s := text), ofString_ofList, List.mem_flatMap]
  rintro ⟨c, member, zero⟩
  exact zero_not_mem_utf8EncodeChar (fun same => nonzero (same ▸ member)) zero

end Bytes

namespace PersistentStore

theorem takeWhile_customKey {tag : String} (nonzero : '\x00' ∉ tag.toList) (key : String) :
    (customKey tag key).takeWhile (· != 0) = Bytes.ofString tag := by
  have apart : ∀ byte ∈ Bytes.ofString tag, (byte != 0) = true := by
    intro byte member
    exact bne_iff_ne.2 fun zero => Bytes.zero_not_mem_ofString nonzero (zero ▸ member)
  rw [customKey, List.append_assoc, List.takeWhile_append_of_pos apart]
  simp

theorem customKey_inj {tag other key otherKey : String} (nonzero : '\x00' ∉ tag.toList)
    (otherNonzero : '\x00' ∉ other.toList) (same : customKey tag key = customKey other otherKey) :
    tag = other ∧ key = otherKey := by
  have tags := takeWhile_customKey nonzero key
  rw [same, takeWhile_customKey otherNonzero] at tags
  obtain rfl := Bytes.ofString_inj tags.symm
  exact ⟨rfl, Bytes.ofString_inj (List.append_cancel_left same)⟩

end PersistentStore

end SupplyGraph
