import SupplyGraph.Proofs.Engine.Runs
import SupplyGraph.Proofs.Outcome
import SupplyGraph.Proofs.Store.Persistent

/-!
What holds of a store whatever its tables contain, also records that cannot be read: a graph that is loaded as a
whole is the graph that single reads show, closures come in a batch as they do one by one, and saved closures are
found again.
-/

namespace SupplyGraph

def GraphStore.load {σ : Type} [GraphStore σ] (store : σ) : Outcome NodeTable := do
  GraphStore.nodes store (← GraphStore.nodeIds store)

class RobustGraphStore (σ : Type) [GraphStore σ] where
  load : ∀ {store : σ} {nodes : NodeTable}, GraphStore.load store = .ok nodes →
    ∀ id : NodeId, nodes[id]? = GraphStore.view store id
  listed : ∀ {store : σ} {nodes : NodeTable}, GraphStore.load store = .ok nodes →
    ∃ ids, GraphStore.nodeIds store = .ok ids ∧ ∀ id, id ∈ ids ↔ id ∈ nodes
  closures : ∀ (store : σ) {records : List Closures}, (records.map (·.id)).Nodup →
    ∀ closures ∈ records, closures.Plain →
      GraphStore.closures (GraphStore.clearWork (GraphStore.saveClosures records store)) closures.id = .ok closures
  worklist : ∀ store : σ, GraphStore.worklist (GraphStore.clearWork store) = .ok []

class BatchingGraphStore (σ : Type) [GraphStore σ] where
  reads : ∀ {store : σ} {ids : List NodeId}, (∀ id ∈ ids, ∃ closures, GraphStore.closures store id = .ok closures) →
    ∃ table, GraphStore.closureTable store ids = .ok table
  single : ∀ {store : σ} {ids : List NodeId} {table : ClosureTable}, GraphStore.closureTable store ids = .ok table →
    ∀ id ∈ ids, table[id]? = (GraphStore.closures store id).toOption

namespace MemoryStore

instance : RobustGraphStore MemoryStore where
  load := by
    intro store nodes loaded id
    obtain rfl := Except.ok.inj loaded
    refine Option.ext fun node => ?_
    rw [GraphStore.view_eq_some, getElem?_nodeTable_keys]
    exact node_eq_ok.symm
  listed := by
    intro store nodes loaded
    obtain rfl := Except.ok.inj loaded
    refine ⟨store.nodes.keys, rfl, fun id => ?_⟩
    rw [Std.TreeMap.mem_iff_isSome_getElem?, getElem?_nodeTable_keys, ← Std.TreeMap.mem_iff_isSome_getElem?,
      Std.TreeMap.mem_keys]
  closures := by
    intro store records nodup closures listed _
    refine closuresOf_eq_ok.2 ?_
    change (records.foldl saveClosures store).closures[closures.id]? = _
    rw [foldl_saveClosures]
    exact getElem?_insertAll_of_nodup id nodup store.closures listed
  worklist _ := rfl

instance : BatchingGraphStore MemoryStore where
  reads {store ids} _ := ⟨store.closureTable ids, rfl⟩
  single := by
    intro store ids table read id member
    obtain rfl := Except.ok.inj read
    rw [getElem?_closureTable, if_pos member]
    change _ = (store.closuresOf id).toOption
    rw [closuresOf]
    cases store.closures[id]? <;> rfl

end MemoryStore

namespace PersistentStore

theorem foldl_saveClosures (records : List Closures) (store : PersistentStore) :
    records.foldl saveClosures store = { store with
      closures := records.foldl (fun table closures => table.insert (keyOfId closures.id) closures.toJson)
        store.closures } := by
  induction records generalizing store with
  | nil => rfl
  | cons closures records ih => exact ih (store.saveClosures closures)

theorem keyOfId_of_idOfKey {key : Bytes} {id : NodeId} (read : idOfKey key = .ok id) : keyOfId id = key := by
  unfold idOfKey at read
  split at read
  next length =>
    obtain rfl := Except.ok.inj read
    have small := Bytes.ofBigEndian_lt key
    have back := Bytes.bigEndian_ofBigEndian key
    rw [length] at small back
    rw [keyOfId, UInt32.toNat_ofNat', Nat.mod_eq_of_lt (by omega), back]
  next => cases read

theorem mem_nodeIds {store : PersistentStore} {ids : List NodeId} (read : GraphStore.nodeIds store = .ok ids)
    (id : NodeId) : id ∈ ids ↔ keyOfId id ∈ store.nodes := by
  rw [mem_of_mapM read, ← Std.TreeMap.mem_keys]
  constructor
  · rintro ⟨key, listed, same⟩
    rwa [keyOfId_of_idOfKey same]
  · exact fun listed => ⟨keyOfId id, listed, idOfKey_keyOfId id⟩

theorem getElem?_readTable {α : Type} {records : ByteTable} {decode : Bytes → Outcome α} {ids : List NodeId}
    {table : Std.TreeMap NodeId α}
    (read : ids.foldlM (fun (found : Std.TreeMap NodeId α) id =>
      match records[keyOfId id]? with
      | some record => do return found.insert id (← decode record)
      | none => .ok found) ∅ = .ok table) (id : NodeId) :
    table[id]? = if id ∈ ids then (records[keyOfId id]?).bind fun record => (decode record).toOption else none := by
  rw [eq_foldl_of_foldlM (fun found id next stepped => ?_) read]
  · exact getElem?_collect (fun id => (records[keyOfId id]?).bind fun record => (decode record).toOption)
      (fun _ _ => rfl) ids id
  · cases present : records[keyOfId id]? with
    | none =>
        rw [present] at stepped
        exact (Except.ok.inj stepped).symm
    | some record =>
        rw [present] at stepped
        obtain ⟨value, decoded, stepped⟩ := bind_eq_ok.1 stepped
        simp only [decoded, Option.bind_some]
        exact (Except.ok.inj stepped).symm

theorem idOfName_eq_elim (store : PersistentStore) (name : String) : store.idOfName name =
    (store.names[Bytes.ofString name]?).elim (.error (.nameNotFound name)) idOfKey := by
  rw [idOfName]
  cases store.names[Bytes.ofString name]? <;> rfl

theorem node_eq_elim (store : PersistentStore) (id : NodeId) :
    store.node id = (store.nodes[keyOfId id]?).elim (.error (.nodeNotFound id)) Node.ofJson := by
  rw [PersistentStore.node]
  cases store.nodes[keyOfId id]? <;> rfl

theorem toOption_node (store : PersistentStore) (id : NodeId) :
    (store.node id).toOption = (store.nodes[keyOfId id]?).bind fun record => (Node.ofJson record).toOption := by
  rw [node_eq_elim]
  cases store.nodes[keyOfId id]? <;> rfl

theorem getElem?_nodeTable {store : PersistentStore} {ids : List NodeId} {nodes : NodeTable}
    (read : store.nodeTable ids = .ok nodes) (id : NodeId) :
    nodes[id]? = if id ∈ ids then (store.node id).toOption else none := by
  rw [toOption_node]
  exact getElem?_readTable read id

theorem isSome_node_of_nodeTable {store : PersistentStore} {ids : List NodeId} {nodes : NodeTable}
    (listed : GraphStore.nodeIds store = .ok ids) (read : store.nodeTable ids = .ok nodes) {id : NodeId}
    (member : id ∈ ids) : (store.node id).toOption.isSome := by
  obtain ⟨record, present⟩ := getElem?_of_mem ((mem_nodeIds listed id).1 member)
  obtain ⟨before, after, stepped⟩ := exists_step_of_foldlM read member
  rw [present] at stepped
  obtain ⟨node, decoded, -⟩ := bind_eq_ok.1 stepped
  simp only [PersistentStore.node, present, decoded]
  rfl

theorem view_eq_none {store : PersistentStore} {id : NodeId} (absent : keyOfId id ∉ store.nodes) :
    GraphStore.view store id = none := by
  change (store.node id).toOption = none
  rw [PersistentStore.node, Std.TreeMap.getElem?_eq_none absent]
  rfl

instance : RobustGraphStore PersistentStore where
  load := by
    intro store nodes loaded id
    obtain ⟨ids, listed, read⟩ := bind_eq_ok.1 loaded
    rw [getElem?_nodeTable read]
    split
    next => rfl
    next absent => exact (view_eq_none fun present => absent ((mem_nodeIds listed id).2 present)).symm
  listed := by
    intro store nodes loaded
    obtain ⟨ids, listed, read⟩ := bind_eq_ok.1 loaded
    refine ⟨ids, listed, fun id => ?_⟩
    rw [Std.TreeMap.mem_iff_isSome_getElem?, getElem?_nodeTable read]
    split
    next member => simp [member, isSome_node_of_nodeTable listed read member]
    next absent => simp [absent]
  closures := by
    intro store records nodup closures listed plain
    have keys : (records.map fun closures => keyOfId closures.id).Nodup := by
      have keys := nodup.map fun id other => keyOfId_inj id other
      rwa [List.map_map] at keys
    have found := getElem?_insertAll_of_nodup Closures.toJson keys store.closures listed
    change (records.foldl saveClosures store).closuresOf closures.id = _
    rw [closuresOf, foldl_saveClosures, found]
    exact Closures.ofJson_toJson plain
  worklist _ := rfl

instance : BatchingGraphStore PersistentStore where
  reads := by
    intro store ids each
    apply exists_foldlM_eq_ok
    intro id member found
    obtain ⟨closures, read⟩ := each id member
    change store.closuresOf id = .ok closures at read
    cases present : store.closures[keyOfId id]? with
    | none => exact ⟨found, rfl⟩
    | some record =>
        rw [closuresOf, present] at read
        exact ⟨found.insert id closures, bind_eq_ok.2 ⟨closures, read, rfl⟩⟩
  single := by
    intro store ids table read id member
    rw [getElem?_readTable read, if_pos member]
    change _ = (store.closuresOf id).toOption
    rw [closuresOf]
    cases store.closures[keyOfId id]? <;> rfl

end PersistentStore

end SupplyGraph
