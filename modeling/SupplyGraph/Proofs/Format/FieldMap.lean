import SupplyGraph.Format.FieldMap
import SupplyGraph.Proofs.Format.Bytes
import SupplyGraph.Proofs.Store.Table

/-!
Fields are read back from their record, when their number and the lengths of their names and data are words of eight
bytes. Longer ones are cut short in the record.
-/

namespace SupplyGraph.FieldMap

abbrev IsWord (n : Nat) : Prop := n < 256 ^ 8

def EntryFits (entry : String × Bytes) : Prop := IsWord (Bytes.ofString entry.1).length ∧ IsWord entry.2.length

structure Fits (fields : FieldMap) : Prop where
  size : IsWord fields.size
  entries : ∀ entry ∈ fields.toList, EntryFits entry

theorem readNumber_append {n : Nat} (word : IsWord n) (rest : Bytes) :
    readNumber (Bytes.littleEndian 8 n ++ rest) = some (n, rest) := by
  rw [readNumber, Bytes.split?_append (Bytes.length_littleEndian 8 n)]
  simp only [Option.map_some, Bytes.ofLittleEndian_of_lt word]

theorem readCounted_append {bytes : Bytes} (word : IsWord bytes.length) (rest : Bytes) :
    readCounted (writeCounted bytes ++ rest) = some (bytes, rest) := by
  rw [readCounted, writeCounted, List.append_assoc, readNumber_append word]
  exact Bytes.split?_append rfl

theorem readFields_append {entries : List (String × Bytes)} (fit : ∀ entry ∈ entries, EntryFits entry)
    (fields : FieldMap) (rest : Bytes) :
    readFields fields entries.length ((entries.flatMap fun (name, data) =>
      writeCounted (Bytes.ofString name) ++ writeCounted data) ++ rest) =
        some (entries.foldl (fun fields entry => fields.insert entry.1 entry.2) fields) := by
  induction entries generalizing fields with
  | nil => rfl
  | cons entry entries ih =>
      obtain ⟨name, data⟩ := entry
      obtain ⟨nameFits, dataFits⟩ := fit (name, data) List.mem_cons_self
      have later := ih (fun other member => fit other (List.mem_cons_of_mem _ member)) (fields.insert name data)
      simp only [List.length_cons, List.flatMap_cons, List.append_assoc, readFields, readCounted_append nameFits,
        readCounted_append dataFits, Bytes.toString?_ofString, Option.bind_eq_bind, Option.bind_some]
      exact later

theorem nodup_names (fields : FieldMap) : (fields.toList.map Prod.fst).Nodup := by
  rw [Std.TreeMap.map_fst_toList_eq_keys]
  exact Std.TreeMap.distinct_keys.imp fun different same => different (Std.compare_eq_iff_eq.2 same)

theorem decode_encode {fields : FieldMap} (fits : Fits fields) :
    ∃ found, decode (encode fields) = some found ∧ ∀ name : String, found[name]? = fields[name]? := by
  refine ⟨fields.toList.foldl (fun found entry => found.insert entry.1 entry.2) ∅, ?_, fun name => ?_⟩
  · have read := readFields_append fits.entries ∅ []
    rw [Std.TreeMap.length_toList, List.append_nil] at read
    rw [decode, encode, readNumber_append fits.size]
    exact read
  · cases present : fields[name]? with
    | some data =>
        have listed : (name, data) ∈ fields.toList := Std.TreeMap.mem_toList_iff_getElem?_eq_some.2 present
        exact getElem?_insertAll_of_nodup Prod.snd fields.nodup_names ∅ listed
    | none =>
        have absent : name ∉ fields.toList.map Prod.fst := by
          simp [Std.TreeMap.mem_iff_isSome_getElem?, present]
        rw [getElem?_insertAll_of_not_mem absent]
        simp

end SupplyGraph.FieldMap
