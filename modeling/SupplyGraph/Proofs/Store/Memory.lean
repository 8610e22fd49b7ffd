import SupplyGraph.Store.Memory
import SupplyGraph.Proofs.Store.Table

/-!
The tables of a memory store after reading and writing many records, key by key.
-/

namespace SupplyGraph

namespace MemoryStore

variable {store : MemoryStore}

theorem getElem?_nodeTable (store : MemoryStore) (ids : List NodeId) (id : NodeId) :
    (store.nodeTable ids)[id]? = if id ∈ ids then store.nodes[id]? else none := by
  refine getElem?_collect (store.nodes[·]?) (fun found id => ?_) ids id
  cases store.nodes[id]? <;> rfl

theorem getElem?_nodeTable_keys (store : MemoryStore) (id : NodeId) :
    (store.nodeTable store.nodes.keys)[id]? = store.nodes[id]? := by
  rw [getElem?_nodeTable]
  split
  next => rfl
  next absent => rw [Std.TreeMap.getElem?_eq_none fun present => absent (Std.TreeMap.mem_keys.2 present)]

theorem getElem?_closureTable (store : MemoryStore) (ids : List NodeId) (id : NodeId) :
    (store.closureTable ids)[id]? = if id ∈ ids then store.closures[id]? else none := by
  refine getElem?_collect (store.closures[·]?) (fun found id => ?_) ids id
  cases store.closures[id]? <;> rfl

theorem node_eq_ok {id : NodeId} {node : Node} : store.node id = .ok node ↔ store.nodes[id]? = some node := by
  rw [MemoryStore.node]
  cases store.nodes[id]? <;> simp

theorem idOfName_eq_ok {name : String} {id : NodeId} :
    store.idOfName name = .ok id ↔ store.names[name]? = some id := by
  rw [idOfName]
  cases store.names[name]? <;> simp

theorem closuresOf_eq_ok {id : NodeId} {closures : Closures} :
    store.closuresOf id = .ok closures ↔ store.closures[id]? = some closures := by
  rw [closuresOf]
  cases store.closures[id]? <;> simp

theorem foldl_saveNode (nodes : List Node) (store : MemoryStore) :
    nodes.foldl saveNode store = { store with
      nodes := nodes.foldl (fun table node => table.insert node.id node) store.nodes
      names := nodes.foldl (fun table node => table.insert node.name node.id) store.names
      worklist := store.worklist ++ nodes.map (·.id) } := by
  induction nodes generalizing store with
  | nil => simp
  | cons node nodes ih =>
      rw [List.foldl_cons, ih]
      simp [saveNode]

theorem foldl_saveClosures (records : List Closures) (store : MemoryStore) :
    records.foldl saveClosures store = { store with
      closures := records.foldl (fun table closures => table.insert closures.id closures) store.closures } := by
  induction records generalizing store with
  | nil => rfl
  | cons closures records ih => exact ih (store.saveClosures closures)

theorem getElem?_nodes_saveNodes {value : NodeId → Option Node} {nodes : List Node}
    (agree : ∀ node ∈ nodes, value node.id = some node) (store : MemoryStore) (id : NodeId) :
    (nodes.foldl saveNode store).nodes[id]? = if id ∈ nodes.map (·.id) then value id else store.nodes[id]? := by
  rw [foldl_saveNode]
  exact getElem?_insertAll agree store.nodes id

theorem getElem?_names_saveNodes {nodes : List Node} {store : MemoryStore}
    (known : ∀ node ∈ nodes, store.names[node.name]? = some node.id) (name : String) :
    (nodes.foldl saveNode store).names[name]? = store.names[name]? := by
  rw [foldl_saveNode]
  exact getElem?_insertAll_of_known known name

end MemoryStore

variable {nodes : NodeTable}

theorem mem_sortedById {node : Node} : node ∈ sortedById nodes ↔ ∃ id : NodeId, nodes[id]? = some node := by
  rw [sortedById, List.mem_mergeSort, mem_values]

theorem ascending_values (own : ∀ (id : NodeId) node, nodes[id]? = some node → node.id = id) :
    nodes.values.Pairwise fun left right => left.id < right.id := by
  have ascending : nodes.toList.Pairwise fun left right => left.1 < right.1 := by
    have keys := ascending_keys nodes
    rw [← Std.TreeMap.map_fst_toList_eq_keys, List.pairwise_map] at keys
    exact keys
  rw [values_eq_map_toList, List.pairwise_map]
  refine ascending.imp_of_mem fun {left right} leftMember rightMember below => ?_
  rw [own _ _ (Std.TreeMap.mem_toList_iff_getElem?_eq_some.1 leftMember),
    own _ _ (Std.TreeMap.mem_toList_iff_getElem?_eq_some.1 rightMember)]
  exact below

theorem sortedById_eq_values (own : ∀ (id : NodeId) node, nodes[id]? = some node → node.id = id) :
    sortedById nodes = nodes.values :=
  List.mergeSort_of_pairwise ((ascending_values own).imp fun below => decide_eq_true (UInt32.le_of_lt below))

end SupplyGraph
