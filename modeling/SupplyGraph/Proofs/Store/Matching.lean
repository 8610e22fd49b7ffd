import SupplyGraph.Proofs.Engine.Consistency
import SupplyGraph.Proofs.Outcome
import SupplyGraph.Proofs.Store.Persistent
import SupplyGraph.Proofs.Text.Repair

/-!
Both stores find the same nodes for a pattern, though one matches the names of its nodes and the other the keys of its
index of names.
-/

namespace SupplyGraph

open LawfulGraphStore (Holds)

class MatchingGraphStore (σ : Type) [GraphStore σ] extends LawfulGraphStore σ where
  nodesMatching : ∀ {store : σ} {contents : MemoryStore} {generated : Nat}, Holds store contents →
    Engine.Consistent generated contents →
    ∀ pattern, GraphStore.nodesMatching store pattern = .ok (contents.nodesMatching pattern)

instance : MatchingGraphStore MemoryStore where
  nodesMatching := by
    intro store contents generated ⟨custom, same⟩ consistent pattern
    rw [same]
    rfl

theorem sortedById_congr {nodes other : NodeTable} (same : ∀ id : NodeId, nodes[id]? = other[id]?) :
    sortedById nodes = sortedById other := by
  have equiv : nodes.Equiv other := Std.TreeMap.Equiv.of_forall_constGet?_eq same
  rw [sortedById, equiv.values_eq, sortedById]

namespace PersistentStore

variable {store : PersistentStore} {contents : MemoryStore} {generated : Nat}

theorem Stores.mem_names (stores : Stores store contents) {key record : Bytes} :
    (key, record) ∈ store.names.toList ↔
      ∃ name id, key = Bytes.ofString name ∧ record = keyOfId id ∧ contents.names[name]? = some id := by
  rw [Std.TreeMap.mem_toList_iff_getElem?_eq_some]
  constructor
  · intro found
    obtain ⟨name, rfl⟩ := stores.names.keyed key (mem_of_getElem? found)
    rw [stores.names.found, Option.map_eq_some_iff] at found
    obtain ⟨id, indexed, rfl⟩ := found
    exact ⟨name, id, rfl, rfl, indexed⟩
  · intro ⟨name, id, isKey, isRecord, indexed⟩
    rw [isKey, isRecord, stores.names.found, indexed]
    rfl

theorem Stores.matchingIds (stores : Stores store contents) (pattern : Glob.Pattern) :
    ∃ ids, (store.names.toList.filter fun (name, _) => pattern.matchesBytes (Text.repair name)).mapM
        (fun (_, key) => idOfKey key) = .ok ids ∧
      ∀ id, id ∈ ids ↔ ∃ name, contents.names[name]? = some id ∧ pattern.accepts name := by
  let matching := store.names.toList.filter fun (name, _) => pattern.matchesBytes (Text.repair name)
  have reads : ∀ entry ∈ matching, ∃ id, idOfKey entry.2 = .ok id := by
    intro entry member
    obtain ⟨_, id, _, isKey, _⟩ := stores.mem_names.1 (List.mem_filter.1 member).1
    exact ⟨id, isKey ▸ idOfKey_keyOfId id⟩
  obtain ⟨ids, read⟩ := exists_mapM_eq_ok reads
  refine ⟨ids, read, fun id => ?_⟩
  rw [mem_of_mapM read]
  constructor
  · intro ⟨entry, member, isId⟩
    obtain ⟨listed, accepted⟩ := List.mem_filter.1 member
    obtain ⟨name, other, isName, isKey, indexed⟩ := stores.mem_names.1 listed
    rw [isKey, idOfKey_keyOfId] at isId
    obtain rfl := Except.ok.inj isId
    change pattern.matchesBytes (Text.repair entry.1) at accepted
    rw [isName, Text.repair_ofString] at accepted
    exact ⟨name, indexed, accepted⟩
  · intro ⟨name, indexed, accepted⟩
    have listed := stores.mem_names.2 ⟨name, id, rfl, rfl, indexed⟩
    refine ⟨_, List.mem_filter.2 ⟨listed, ?_⟩, idOfKey_keyOfId id⟩
    change pattern.matchesBytes (Text.repair (Bytes.ofString name))
    rw [Text.repair_ofString]
    exact accepted

theorem Stores.nodesMatching_eq (stores : Stores store contents) (pattern : Glob.Pattern) :
    ∃ ids, store.nodesMatching pattern = .ok (sortedById (contents.nodeTable ids)) ∧
      ∀ id, id ∈ ids ↔ ∃ name, contents.names[name]? = some id ∧ pattern.accepts name := by
  obtain ⟨ids, read, members⟩ := stores.matchingIds pattern
  refine ⟨ids, ?_, members⟩
  unfold PersistentStore.nodesMatching
  dsimp only
  rw [read]
  change (do return sortedById (← store.nodeTable ids)) = _
  rw [stores.nodeTable]
  rfl

theorem Stores.nodesMatching (stores : Stores store contents) (consistent : Engine.Consistent generated contents)
    (pattern : Glob.Pattern) : store.nodesMatching pattern = .ok (contents.nodesMatching pattern) := by
  obtain ⟨ids, read, members⟩ := stores.nodesMatching_eq pattern
  have same (id : NodeId) : (contents.nodeTable ids)[id]? =
      (contents.nodes.filter fun _ node => pattern.accepts node.name)[id]? := by
    have matching : id ∈ ids ↔ ∃ node, contents.nodes[id]? = some node ∧ pattern.accepts node.name := by
      rw [members]
      constructor
      · rintro ⟨name, indexed, accepted⟩
        obtain ⟨node, found, rfl⟩ := consistent.named name id indexed
        exact ⟨node, found, accepted⟩
      · rintro ⟨node, found, accepted⟩
        exact ⟨node.name, (consistent.indexed id node found).2, accepted⟩
    rw [MemoryStore.getElem?_nodeTable, Std.TreeMap.getElem?_filter']
    simp only [matching]
    cases contents.nodes[id]? with
    | none => simp
    | some node => by_cases accepted : pattern.accepts node.name <;> simp [accepted, Option.filter]
  rw [read, MemoryStore.nodesMatching, ← sortedById_congr same]

instance : MatchingGraphStore PersistentStore where
  nodesMatching stores consistent pattern := stores.nodesMatching consistent pattern

end PersistentStore

end SupplyGraph
