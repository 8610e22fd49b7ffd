import SupplyGraph.IdSet
import Std.Data.TreeMap
import Mathlib.Data.List.Induction
import Mathlib.Data.List.Nodup
import Mathlib.Tactic.Common

/-!
Tables by id: what they hold after many steps, and their lists of keys and values.
-/

namespace SupplyGraph

theorem getElem?_collect {α : Type} (source : NodeId → Option α)
    {take : Std.TreeMap NodeId α → NodeId → Std.TreeMap NodeId α}
    (takes : ∀ found id, take found id = ((source id).map (found.insert id)).getD found) (ids : List NodeId)
    (id : NodeId) :
    (ids.foldl take ∅)[id]? = if id ∈ ids then source id else none := by
  have general (found : Std.TreeMap NodeId α) :
      (ids.foldl take found)[id]? = if id ∈ ids then (source id).or found[id]? else found[id]? := by
    induction ids generalizing found with
    | nil => simp
    | cons first rest ih =>
        rw [List.foldl_cons, ih, takes]
        cases present : source first with
        | none =>
            by_cases equal : id = first
            · simp [equal, present]
            · simp [equal]
        | some value =>
            by_cases equal : id = first
            · subst equal
              simp [present]
            · simp [equal, Std.TreeMap.getElem?_insert, Ne.symm equal]
  simp [general ∅]

section

variable {κ α β : Type} [Ord κ] [Std.TransOrd κ] [Std.LawfulEqOrd κ] {key : α → κ} {value : α → β}

theorem getElem?_insertAll_last [DecidableEq κ] (key : α → κ) (value : α → β) (records : List α)
    (table : Std.TreeMap κ β) (k : κ) :
    (records.foldl (fun table record => table.insert (key record) (value record)) table)[k]? =
      ((records.filter fun record => key record = k).getLast?.map value).or table[k]? := by
  induction records using List.reverseRecOn with
  | nil => simp
  | append_singleton records record ih =>
      by_cases same : key record = k <;> simp [Std.TreeMap.getElem?_insert, same, ih]

theorem getElem?_insertAll_cases (key : α → κ) (value : α → β) (records : List α) (table : Std.TreeMap κ β) (k : κ) :
    let after := records.foldl (fun table record => table.insert (key record) (value record)) table
    k ∉ records.map key ∧ after[k]? = table[k]? ∨
      ∃ record ∈ records, key record = k ∧ after[k]? = some (value record) := by
  classical
  intro after
  have last := getElem?_insertAll_last key value records table k
  cases found : (records.filter fun record => key record = k).getLast? with
  | none =>
      rw [found] at last
      refine .inl ⟨?_, last⟩
      simpa using List.getLast?_eq_none_iff.1 found
  | some record =>
      rw [found] at last
      obtain ⟨listed, same⟩ := List.mem_filter.1 (List.mem_of_getLast? found)
      exact .inr ⟨record, listed, of_decide_eq_true same, last⟩

theorem getElem?_insertAll_of_not_mem {records : List α} {k : κ} (absent : k ∉ records.map key)
    (table : Std.TreeMap κ β) :
    (records.foldl (fun table record => table.insert (key record) (value record)) table)[k]? = table[k]? := by
  rcases getElem?_insertAll_cases key value records table k with ⟨-, same⟩ | ⟨record, listed, rfl, -⟩
  · exact same
  · exact absurd (List.mem_map_of_mem listed) absent

theorem getElem?_insertAll_of_nodup (value : α → β) {records : List α} (nodup : (records.map key).Nodup)
    (table : Std.TreeMap κ β) {record : α} (listed : record ∈ records) :
    (records.foldl (fun table record => table.insert (key record) (value record)) table)[key record]? =
      some (value record) := by
  rcases getElem?_insertAll_cases key value records table (key record) with
    ⟨absent, -⟩ | ⟨other, otherListed, same, found⟩
  · exact absurd (List.mem_map_of_mem listed) absent
  · rwa [List.inj_on_of_nodup_map nodup otherListed listed same] at found

theorem getElem?_insertAll_of_known {records : List α} {table : Std.TreeMap κ β}
    (known : ∀ record ∈ records, table[key record]? = some (value record)) (k : κ) :
    (records.foldl (fun table record => table.insert (key record) (value record)) table)[k]? = table[k]? := by
  rcases getElem?_insertAll_cases key value records table k with ⟨-, same⟩ | ⟨record, listed, rfl, found⟩
  · exact same
  · rw [found, known record listed]

theorem getElem?_insertAll {records : List α} {lookup : κ → Option β} [DecidableEq κ]
    (agree : ∀ record ∈ records, lookup (key record) = some (value record)) (table : Std.TreeMap κ β) (k : κ) :
    (records.foldl (fun table record => table.insert (key record) (value record)) table)[k]? =
      if k ∈ records.map key then lookup k else table[k]? := by
  rcases getElem?_insertAll_cases key value records table k with ⟨absent, same⟩ | ⟨record, listed, rfl, found⟩
  · rw [same, if_neg absent]
  · rw [found, if_pos (List.mem_map_of_mem listed), agree record listed]

end

theorem mem_insertAll {κ α β : Type} [Ord κ] [Std.TransOrd κ] [Std.LawfulEqOrd κ] {key : α → κ} {value : α → β}
    {records : List α} {table : Std.TreeMap κ β} {k : κ} :
    k ∈ records.foldl (fun table record => table.insert (key record) (value record)) table ↔
      k ∈ table ∨ k ∈ records.map key := by
  induction records generalizing table with
  | nil => simp
  | cons record records ih =>
      rw [List.foldl_cons, ih, Std.TreeMap.mem_insert, Std.compare_eq_iff_eq, List.map_cons, List.mem_cons, or_assoc,
        or_left_comm, eq_comm (a := k)]

variable {κ α : Type} [Ord κ]

theorem mem_of_getElem? [Std.TransOrd κ] {table : Std.TreeMap κ α} {key : κ} {value : α}
    (found : table[key]? = some value) : key ∈ table :=
  Std.TreeMap.mem_iff_isSome_getElem?.2 (Option.isSome_of_eq_some found)

theorem getElem?_of_mem [Std.TransOrd κ] {table : Std.TreeMap κ α} {key : κ} (present : key ∈ table) :
    ∃ value, table[key]? = some value :=
  Option.isSome_iff_exists.1 (Std.TreeMap.mem_iff_isSome_getElem?.1 present)

theorem values_eq_map_toList (table : Std.TreeMap κ α) : table.values = table.toList.map (·.2) := by
  change table.foldr (fun _ value values => value :: values) [] = _
  rw [Std.TreeMap.foldr_eq_foldr_toList]
  induction table.toList with
  | nil => rfl
  | cons entry entries ih => rw [List.foldr_cons, ih, List.map_cons]

theorem mem_values [Std.TransOrd κ] [Std.LawfulEqOrd κ] {table : Std.TreeMap κ α} {value : α} :
    value ∈ table.values ↔ ∃ key : κ, table[key]? = some value := by
  rw [values_eq_map_toList, List.mem_map]
  constructor
  · rintro ⟨⟨key, other⟩, listed, rfl⟩
    exact ⟨key, Std.TreeMap.mem_toList_iff_getElem?_eq_some.1 listed⟩
  · rintro ⟨key, found⟩
    exact ⟨(key, value), Std.TreeMap.mem_toList_iff_getElem?_eq_some.2 found, rfl⟩

theorem ascending_keys (table : Std.TreeMap NodeId α) : table.keys.Pairwise (· < ·) :=
  Std.TreeMap.ordered_keys.imp fun less => Std.compare_eq_lt.1 less

theorem keys_eq_toList {table : Std.TreeMap NodeId α} {set : IdSet} (same : ∀ id, id ∈ table ↔ id ∈ set) :
    table.keys = set.toList := by
  let keys : IdSet := { toList := table.keys, ascending := ascending_keys table }
  have equal : keys = set := IdSet.ext fun id => by rw [IdSet.mem_def, ← same id, Std.TreeMap.mem_keys]
  exact congrArg IdSet.toList equal

end SupplyGraph
