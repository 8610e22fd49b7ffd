import SupplyGraph.Proofs.Store.Robust

/-!
What saving nodes does to a store whose tables may hold anything: the saved nodes change, their ids go on the worklist,
and the rest stays as it is. Of a persistent store this holds for plain nodes only, as others are not read back.
-/

namespace SupplyGraph

variable {σ : Type} [GraphStore σ]

def GraphStore.CanRead (store : σ) (id : NodeId) : Prop :=
  (∃ node, GraphStore.node store id = .ok node) ∨ GraphStore.node store id = .error (.nodeNotFound id)

theorem GraphStore.CanRead.view_eq_none {store : σ} {id : NodeId} (canRead : GraphStore.CanRead store id) :
    GraphStore.view store id = none ↔ GraphStore.node store id = .error (.nodeNotFound id) := by
  rcases canRead with ⟨node, read⟩ | absent
  · simp [GraphStore.view, read, Except.toOption]
  · simp [GraphStore.view, absent, Except.toOption]

class SavingGraphStore (σ : Type) [GraphStore σ] where
  Rest : Type
  rest : σ → Rest
  Waiting : σ → NodeId → Prop
  /-- The node can be read once it has been saved. -/
  Faithful : Node → Prop
  nodes : ∀ {store : σ} {ids : List NodeId}, (∀ id ∈ ids, GraphStore.CanRead store id) →
    ∃ nodes, GraphStore.nodes store ids = .ok nodes ∧ ∀ id ∈ ids, nodes[id]? = GraphStore.view store id
  saved : ∀ (store : σ) {nodes : List Node}, (nodes.map (·.id)).Nodup → ∀ node ∈ nodes, Faithful node →
    GraphStore.node (GraphStore.saveNodes nodes store) node.id = .ok node
  others : ∀ (store : σ) {nodes : List Node} {id : NodeId}, id ∉ nodes.map (·.id) →
    GraphStore.node (GraphStore.saveNodes nodes store) id = GraphStore.node store id
  rest_saveNodes : ∀ {store : σ} {nodes : List Node},
    (∀ node ∈ nodes, GraphStore.idOfName store node.name = .ok node.id) →
      rest (GraphStore.saveNodes nodes store) = rest store
  waiting_saveNodes : ∀ (store : σ) (nodes : List Node) (id : NodeId),
    Waiting (GraphStore.saveNodes nodes store) id ↔ Waiting store id ∨ id ∈ nodes.map (·.id)

class QuietGraphStore (σ : Type) [GraphStore σ] where
  saveNodes_nil : ∀ store : σ, GraphStore.saveNodes [] store = store

instance : QuietGraphStore MemoryStore := ⟨fun _ => rfl⟩

instance : QuietGraphStore PersistentStore := ⟨fun _ => rfl⟩

namespace MemoryStore

structure Rest where
  lastId : NodeId
  names : String → Option NodeId
  closures : ClosureTable
  custom : Std.TreeMap String (Std.TreeMap String FieldMap)

def rest (store : MemoryStore) : Rest := ⟨store.lastId, (store.names[·]?), store.closures, store.custom⟩

instance : SavingGraphStore MemoryStore where
  Rest := Rest
  rest := rest
  Waiting store id := id ∈ store.worklist
  Faithful _ := True
  nodes := by
    intro store ids _
    refine ⟨store.nodeTable ids, rfl, fun id member => Option.ext fun node => ?_⟩
    rw [getElem?_nodeTable, if_pos member, GraphStore.view_eq_some]
    exact node_eq_ok.symm
  saved := by
    intro store nodes nodup node listed _
    refine node_eq_ok.2 ?_
    change (nodes.foldl saveNode store).nodes[node.id]? = some node
    rw [foldl_saveNode]
    exact getElem?_insertAll_of_nodup id nodup store.nodes listed
  others := by
    intro store nodes id absent
    have same : (nodes.foldl saveNode store).nodes[id]? = store.nodes[id]? := by
      rw [foldl_saveNode]
      exact getElem?_insertAll_of_not_mem absent store.nodes
    change (nodes.foldl saveNode store).node id = store.node id
    rw [node, node, same]
  rest_saveNodes := by
    intro store nodes indexed
    have names : ((nodes.foldl saveNode store).names[·]?) = (store.names[·]? : String → Option NodeId) :=
      funext (getElem?_names_saveNodes fun node listed => idOfName_eq_ok.1 (indexed node listed))
    change rest (nodes.foldl saveNode store) = _
    rw [rest, names, foldl_saveNode]
    rfl
  waiting_saveNodes := by
    intro store nodes id
    change id ∈ (nodes.foldl saveNode store).worklist ↔ _
    rw [foldl_saveNode, List.mem_append]

end MemoryStore

namespace PersistentStore

theorem foldl_saveNode (nodes : List Node) (store : PersistentStore) :
    nodes.foldl saveNode store = { store with
      nodes := nodes.foldl (fun table node => table.insert (keyOfId node.id) node.toJson) store.nodes
      names := nodes.foldl (fun table node => table.insert (Bytes.ofString node.name) (keyOfId node.id)) store.names
      worklist := nodes.foldl (fun table node => table.insert (keyOfId node.id) []) store.worklist } := by
  induction nodes generalizing store with
  | nil => rfl
  | cons node nodes ih => exact ih (store.saveNode node)

theorem keyOfId_mem_map {nodes : List Node} {id : NodeId} :
    keyOfId id ∈ nodes.map (fun node => keyOfId node.id) ↔ id ∈ nodes.map (·.id) := by
  simp only [List.mem_map]
  refine exists_congr fun node => and_congr_right fun _ => ⟨keyOfId_inj node.id id, congrArg keyOfId⟩

theorem node_saveNodes (store : PersistentStore) {nodes : List Node} (nodup : (nodes.map (·.id)).Nodup) {node : Node}
    (listed : node ∈ nodes) : (nodes.foldl saveNode store).node node.id = Node.ofJson node.toJson := by
  have keys : (nodes.map fun node => keyOfId node.id).Nodup := by
    have keys := nodup.map fun id other => keyOfId_inj id other
    rwa [List.map_map] at keys
  have found := getElem?_insertAll_of_nodup Node.toJson keys store.nodes listed
  rw [PersistentStore.node, foldl_saveNode, found]

theorem readRecord_ne_nodeNotFound {α : Type} {ofValue? : Value → Option α} {what : String} {bytes : Bytes}
    {id : NodeId} : readRecord ofValue? what bytes ≠ .error (.nodeNotFound id) := by
  unfold readRecord
  split <;> simp

theorem names_of_idOfName {store : PersistentStore} {name : String} {id : NodeId} (read : store.idOfName name = .ok id) :
    store.names[Bytes.ofString name]? = some (keyOfId id) := by
  unfold PersistentStore.idOfName at read
  split at read
  next key found => rw [found, keyOfId_of_idOfKey read]
  next => cases read

structure Rest where
  names : Bytes → Option Bytes
  closures : ByteTable
  custom : ByteTable
  counters : ByteTable

def rest (store : PersistentStore) : Rest := ⟨(store.names[·]?), store.closures, store.custom, store.counters⟩

instance : SavingGraphStore PersistentStore where
  Rest := Rest
  rest := rest
  Waiting store id := keyOfId id ∈ store.worklist
  Faithful := Node.Plain
  nodes := by
    intro store ids canRead
    have reads : ∀ id ∈ ids, ∀ found : NodeTable, ∃ next, (match store.nodes[keyOfId id]? with
        | some record => do return found.insert id (← Node.ofJson record)
        | none => .ok found : Outcome NodeTable) = .ok next := by
      intro id member found
      cases present : store.nodes[keyOfId id]? with
      | none => exact ⟨found, rfl⟩
      | some record =>
          have single : GraphStore.node store id = Node.ofJson record := by
            change store.node id = _
            rw [PersistentStore.node, present]
          rcases canRead id member with ⟨node, read⟩ | absent
          · exact ⟨found.insert id node, bind_eq_ok.2 ⟨node, single.symm.trans read, rfl⟩⟩
          · exact absurd (single.symm.trans absent) readRecord_ne_nodeNotFound
    obtain ⟨nodes, read⟩ := exists_foldlM_eq_ok reads ∅
    refine ⟨nodes, read, fun id member => ?_⟩
    rw [getElem?_nodeTable read, if_pos member]
    rfl
  saved := by
    intro store nodes nodup node listed plain
    exact (node_saveNodes store nodup listed).trans (Node.ofJson_toJson plain)
  others := by
    intro store nodes id absent
    have same : (nodes.foldl saveNode store).nodes[keyOfId id]? = store.nodes[keyOfId id]? := by
      rw [foldl_saveNode]
      exact getElem?_insertAll_of_not_mem (mt keyOfId_mem_map.1 absent) store.nodes
    change (nodes.foldl saveNode store).node id = store.node id
    rw [PersistentStore.node, PersistentStore.node, same]
  rest_saveNodes := by
    intro store nodes indexed
    have known : ∀ node ∈ nodes, store.names[Bytes.ofString node.name]? = some (keyOfId node.id) := fun node listed =>
      names_of_idOfName (indexed node listed)
    have names : ((nodes.foldl saveNode store).names[·]?) = (store.names[·]? : Bytes → Option Bytes) := by
      rw [foldl_saveNode]
      exact funext (getElem?_insertAll_of_known known)
    change rest (nodes.foldl saveNode store) = _
    rw [rest, names, foldl_saveNode]
    rfl
  waiting_saveNodes := by
    intro store nodes id
    change keyOfId id ∈ (nodes.foldl saveNode store).worklist ↔ _
    rw [foldl_saveNode, mem_insertAll, keyOfId_mem_map]

end PersistentStore

end SupplyGraph
