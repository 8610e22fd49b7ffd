import SupplyGraph.Proofs.Format.Record
import SupplyGraph.Proofs.Store.Lawful
import SupplyGraph.Proofs.Store.Memory
import SupplyGraph.Store.Persistent

/-!
A persistent store behaves as a memory store does. Its tables hold the records of the memory store under the keys
of its ids and names.
-/

namespace SupplyGraph

/-- The table holds, under the keys, the records of what is looked up, and nothing else. -/
structure ByteTable.Represents {κ α : Type} (key : κ → Bytes) (record : α → Bytes) (lookup : κ → Option α)
    (table : ByteTable) : Prop where
  found : ∀ k, table[key k]? = (lookup k).map record
  keyed : ∀ bytes ∈ table, ∃ k, bytes = key k

namespace ByteTable.Represents

variable {κ α : Type} {key : κ → Bytes} {record : α → Bytes} {lookup : κ → Option α} {table : ByteTable}

theorem empty {lookup : κ → Option α} (nothing : ∀ k, lookup k = none) :
    Represents key record lookup (∅ : ByteTable) :=
  ⟨fun k => by simp [nothing], fun bytes member => absurd member Std.TreeMap.not_mem_emptyc⟩

theorem insert (represents : Represents key record lookup table)
    (injective : ∀ k other, key k = key other → k = other)
    {k : κ} {value : α} {changed : κ → Option α} (here : changed k = some value)
    (elsewhere : ∀ other, k ≠ other → changed other = lookup other) :
    Represents key record changed (table.insert (key k) (record value)) := by
  constructor
  case found =>
    intro other
    rw [Std.TreeMap.getElem?_insert]
    split
    · rename_i same
      rw [← injective k other (Std.compare_eq_iff_eq.1 same), here]
      rfl
    · rename_i different
      have apart : k ≠ other := fun same => different (Std.compare_eq_iff_eq.2 (congrArg key same))
      rw [elsewhere other apart, represents.found]
  case keyed =>
    intro bytes member
    rcases Std.TreeMap.mem_insert.1 member with same | old
    · exact ⟨k, (Std.compare_eq_iff_eq.1 same).symm⟩
    · exact represents.keyed bytes old

end ByteTable.Represents

namespace PersistentStore

theorem reopen_eq (store : PersistentStore) : store.reopen = store := rfl

theorem fits (id : NodeId) : id.toNat < 256 ^ 4 := id.toNat_lt

theorem length_keyOfId (id : NodeId) : (keyOfId id).length = 4 := Bytes.length_bigEndian 4 id.toNat

theorem ofBigEndian_keyOfId (id : NodeId) : UInt32.ofNat (Bytes.ofBigEndian (keyOfId id)) = id := by
  rw [keyOfId, Bytes.ofBigEndian_of_lt (fits id), UInt32.ofNat_toNat]

theorem idOfKey_keyOfId (id : NodeId) : idOfKey (keyOfId id) = .ok id := by
  rw [idOfKey, if_pos (length_keyOfId id), ofBigEndian_keyOfId]

theorem keyOfId_inj (id other : NodeId) (same : keyOfId id = keyOfId other) : id = other := by
  rw [← ofBigEndian_keyOfId id, same, ofBigEndian_keyOfId]

theorem lt_of_compare_keyOfId {id other : NodeId} (less : compare (keyOfId id) (keyOfId other) = .lt) :
    id < other := by
  by_contra notBelow
  rcases UInt32.le_iff_lt_or_eq.1 (UInt32.not_lt.1 notBelow) with above | rfl
  · have greater := Bytes.compare_bigEndian (fits id) (UInt32.lt_iff_toNat_lt.1 above)
    cases (Std.OrientedCmp.gt_of_lt less).symm.trans greater
  · rw [Std.compare_self] at less
    cases less

theorem mapM_ok {α β : Type} {read : α → Outcome β} {value : α → β} {items : List α}
    (reads : ∀ item ∈ items, read item = .ok (value item)) : items.mapM read = .ok (items.map value) := by
  induction items with
  | nil => rfl
  | cons item items ih =>
      rw [List.mapM_cons, reads item (List.mem_cons_self ..),
        ih fun other member => reads other (List.mem_cons_of_mem _ member)]
      rfl

theorem keys_mapM {α : Type} {record : α → Bytes} {lookup : NodeId → Option α} {table : ByteTable}
    (represents : table.Represents keyOfId record lookup) :
    ∃ ids, table.keys.mapM idOfKey = .ok ids ∧ ids.Pairwise (· < ·) ∧ ∀ id, id ∈ ids ↔ (lookup id).isSome := by
  let idOf (key : Bytes) : NodeId := UInt32.ofNat (Bytes.ofBigEndian key)
  have reads : ∀ key ∈ table.keys, keyOfId (idOf key) = key ∧ idOfKey key = .ok (idOf key) := by
    intro key listed
    obtain ⟨id, rfl⟩ := represents.keyed key (Std.TreeMap.mem_keys.1 listed)
    rw [show idOf (keyOfId id) = id from ofBigEndian_keyOfId id]
    exact ⟨rfl, idOfKey_keyOfId id⟩
  refine ⟨table.keys.map idOf, ?_, ?_, fun id => ?_⟩
  · exact mapM_ok fun key listed => (reads key listed).2
  · rw [List.pairwise_map]
    refine Std.TreeMap.ordered_keys.imp_of_mem fun {key other} member otherMember less => ?_
    rw [← (reads key member).1, ← (reads other otherMember).1] at less
    exact lt_of_compare_keyOfId less
  · have stored : keyOfId id ∈ table ↔ (lookup id).isSome := by
      rw [Std.TreeMap.mem_iff_isSome_getElem?, represents.found, Option.isSome_map]
    rw [← stored, List.mem_map]
    constructor
    · rintro ⟨key, listed, rfl⟩
      rw [(reads key listed).1]
      exact Std.TreeMap.mem_keys.1 listed
    · intro member
      exact ⟨keyOfId id, Std.TreeMap.mem_keys.2 member, ofBigEndian_keyOfId id⟩

def onWorklist (ids : List NodeId) (id : NodeId) : Option Unit := if id ∈ ids then some () else none

/-- The tables hold the records of a memory store. -/
structure Stores (store : PersistentStore) (contents : MemoryStore) : Prop where
  lastId : store.lastId = contents.lastId
  nodes : store.nodes.Represents keyOfId Node.toJson (contents.nodes[·]?)
  plain : ∀ (id : NodeId) node, contents.nodes[id]? = some node → node.Plain
  names : store.names.Represents Bytes.ofString keyOfId (contents.names[·]?)
  closures : store.closures.Represents keyOfId Closures.toJson (contents.closures[·]?)
  plainClosures : ∀ (id : NodeId) closures, contents.closures[id]? = some closures → closures.Plain
  worklist : store.worklist.Represents keyOfId (fun _ => []) (onWorklist contents.worklist)

variable {store : PersistentStore} {contents : MemoryStore}

theorem stores_empty : Stores {} {} := by
  constructor
  case lastId => rfl
  case nodes => exact .empty fun id => by simp
  case plain => exact fun id node found => by simp at found
  case names => exact .empty fun name => by simp
  case closures => exact .empty fun id => by simp
  case plainClosures => exact fun id closures found => by simp at found
  case worklist => exact .empty fun id => rfl

theorem lastId_newId (store : PersistentStore) : store.newId.2.lastId = store.lastId + 1 := by
  unfold newId lastId
  simp [idOfKey_keyOfId, Except.toOption]

theorem Stores.newId (stores : Stores store contents) : Stores store.newId.2 contents.newId.2 := by
  constructor
  case lastId =>
    rw [lastId_newId, stores.lastId]
    rfl
  case nodes => exact stores.nodes
  case plain => exact stores.plain
  case names => exact stores.names
  case closures => exact stores.closures
  case plainClosures => exact stores.plainClosures
  case worklist => exact stores.worklist

theorem Stores.saveNode (stores : Stores store contents) {node : Node} (plain : node.Plain) :
    Stores (store.saveNode node) (contents.saveNode node) := by
  constructor
  case lastId => exact stores.lastId
  case nodes =>
    refine stores.nodes.insert keyOfId_inj (by simp [MemoryStore.saveNode]) fun other different => ?_
    simp [MemoryStore.saveNode, Std.TreeMap.getElem?_insert, different]
  case plain =>
    intro id other found
    simp only [MemoryStore.saveNode, Std.TreeMap.getElem?_insert] at found
    split at found
    · exact Option.some.inj found ▸ plain
    · exact stores.plain id other found
  case names =>
    refine stores.names.insert (fun _ _ => Bytes.ofString_inj) (by simp [MemoryStore.saveNode]) fun other different => ?_
    simp [MemoryStore.saveNode, Std.TreeMap.getElem?_insert, different]
  case closures => exact stores.closures
  case plainClosures => exact stores.plainClosures
  case worklist =>
    have here : onWorklist (contents.saveNode node).worklist node.id = some () := by
      simp [MemoryStore.saveNode, onWorklist]
    refine stores.worklist.insert keyOfId_inj here fun other different => ?_
    simp [MemoryStore.saveNode, onWorklist, Ne.symm different]

theorem Stores.saveNodes (stores : Stores store contents) {nodes : List Node} (plain : ∀ node ∈ nodes, node.Plain) :
    Stores (nodes.foldl PersistentStore.saveNode store) (nodes.foldl MemoryStore.saveNode contents) := by
  induction nodes generalizing store contents with
  | nil => exact stores
  | cons node nodes ih =>
      exact ih (stores.saveNode (plain node (List.mem_cons_self ..)))
        fun other member => plain other (List.mem_cons_of_mem _ member)

theorem Stores.saveClosures (stores : Stores store contents) {closures : Closures} (plain : closures.Plain) :
    Stores (store.saveClosures closures) (contents.saveClosures closures) := by
  constructor
  case lastId => exact stores.lastId
  case nodes => exact stores.nodes
  case plain => exact stores.plain
  case names => exact stores.names
  case closures =>
    refine stores.closures.insert keyOfId_inj (by simp [MemoryStore.saveClosures]) fun other different => ?_
    simp [MemoryStore.saveClosures, Std.TreeMap.getElem?_insert, different]
  case plainClosures =>
    intro id other found
    simp only [MemoryStore.saveClosures, Std.TreeMap.getElem?_insert] at found
    split at found
    · exact Option.some.inj found ▸ plain
    · exact stores.plainClosures id other found
  case worklist => exact stores.worklist

theorem Stores.saveAllClosures (stores : Stores store contents) {records : List Closures}
    (plain : ∀ closures ∈ records, closures.Plain) :
    Stores (records.foldl PersistentStore.saveClosures store) (records.foldl MemoryStore.saveClosures contents) := by
  induction records generalizing store contents with
  | nil => exact stores
  | cons closures records ih =>
      exact ih (stores.saveClosures (plain closures (List.mem_cons_self ..)))
        fun other member => plain other (List.mem_cons_of_mem _ member)

theorem mem_foldl_insert (keys : List Bytes) (worklist : ByteTable) (key : Bytes) :
    (keys.foldl (fun worklist key => worklist.insert key []) worklist)[key]? =
      if key ∈ keys then some [] else worklist[key]? := by
  induction keys generalizing worklist with
  | nil => simp
  | cons first keys ih =>
      rw [List.foldl_cons, ih]
      by_cases later : key ∈ keys
      · simp [later]
      · by_cases equal : first = key
        · simp [equal]
        · simp [later, equal, Ne.symm equal, Std.TreeMap.getElem?_insert]

theorem Stores.dropClosures (stores : Stores store contents) : Stores store.dropClosures contents.dropClosures := by
  constructor
  case lastId => exact stores.lastId
  case nodes => exact stores.nodes
  case plain => exact stores.plain
  case names => exact stores.names
  case closures => exact .empty fun id => by simp [MemoryStore.dropClosures]
  case plainClosures => exact fun id closures found => by simp [MemoryStore.dropClosures] at found
  case worklist =>
    have closed (id : NodeId) : keyOfId id ∈ store.closures.keys ↔ id ∈ contents.closures.keys := by
      rw [Std.TreeMap.mem_keys, Std.TreeMap.mem_keys, Std.TreeMap.mem_iff_isSome_getElem?, stores.closures.found,
        Option.isSome_map, ← Std.TreeMap.mem_iff_isSome_getElem?]
    constructor
    case found =>
      intro id
      change (store.closures.keys.foldl (fun worklist key => worklist.insert key []) store.worklist)[keyOfId id]? = _
      rw [mem_foldl_insert, stores.worklist.found]
      by_cases dropped : id ∈ contents.closures.keys
      · rw [if_pos ((closed id).2 dropped)]
        simp only [onWorklist, MemoryStore.dropClosures, List.mem_append, dropped, or_true, if_true, Option.map_some]
      · rw [if_neg fun listed => dropped ((closed id).1 listed)]
        simp only [onWorklist, MemoryStore.dropClosures, List.mem_append, dropped, or_false]
    case keyed =>
      intro key member
      rw [Std.TreeMap.mem_iff_isSome_getElem?] at member
      change ((store.closures.keys.foldl (fun worklist key => worklist.insert key [])
        store.worklist)[key]?).isSome at member
      rw [mem_foldl_insert] at member
      split at member
      · rename_i listed
        exact stores.closures.keyed key (Std.TreeMap.mem_keys.1 listed)
      · exact stores.worklist.keyed key (Std.TreeMap.mem_iff_isSome_getElem?.2 member)

theorem Stores.node (stores : Stores store contents) (id : NodeId) : store.node id = contents.node id := by
  unfold PersistentStore.node MemoryStore.node
  rw [stores.nodes.found]
  cases found : contents.nodes[id]? with
  | none => rfl
  | some node => exact Node.ofJson_toJson (stores.plain id node found)

theorem Stores.idOfName (stores : Stores store contents) (name : String) :
    store.idOfName name = contents.idOfName name := by
  unfold PersistentStore.idOfName MemoryStore.idOfName
  rw [stores.names.found]
  cases contents.names[name]? with
  | none => rfl
  | some id => exact idOfKey_keyOfId id

theorem Stores.closuresOf (stores : Stores store contents) (id : NodeId) :
    store.closuresOf id = contents.closuresOf id := by
  unfold PersistentStore.closuresOf MemoryStore.closuresOf
  rw [stores.closures.found]
  cases found : contents.closures[id]? with
  | none => rfl
  | some closures => exact Closures.ofJson_toJson (stores.plainClosures id closures found)

theorem foldlM_ok {α β : Type} {step : β → α → Outcome β} {plain : β → α → β}
    (same : ∀ state item, step state item = .ok (plain state item))
    (items : List α) (state : β) : items.foldlM step state = .ok (items.foldl plain state) := by
  induction items generalizing state with
  | nil => rfl
  | cons item items ih =>
      rw [List.foldlM_cons, same]
      exact ih (plain state item)

theorem Stores.nodeTable (stores : Stores store contents) (ids : List NodeId) :
    store.nodeTable ids = .ok (contents.nodeTable ids) := by
  refine foldlM_ok (fun found id => ?_) ids ∅
  rw [stores.nodes.found]
  cases present : contents.nodes[id]? with
  | none => rfl
  | some node =>
      simp only [Option.map_some, Node.ofJson_toJson (stores.plain id node present)]
      rfl

theorem Stores.closureTable (stores : Stores store contents) (ids : List NodeId) :
    store.closureTable ids = .ok (contents.closureTable ids) := by
  refine foldlM_ok (fun found id => ?_) ids ∅
  rw [stores.closures.found]
  cases present : contents.closures[id]? with
  | none => rfl
  | some closures =>
      simp only [Option.map_some, Closures.ofJson_toJson (stores.plainClosures id closures present)]
      rfl

theorem Stores.nodeIds (stores : Stores store contents) :
    store.nodes.keys.mapM idOfKey = .ok contents.nodes.keys := by
  obtain ⟨ids, read, ascending, members⟩ := keys_mapM stores.nodes
  have same : ids = contents.nodes.keys := by
    have listed : ({ toList := ids, ascending } : IdSet).toList = contents.nodes.keys := by
      refine (keys_eq_toList fun id => ?_).symm
      rw [Std.TreeMap.mem_iff_isSome_getElem?]
      exact (members id).symm
    exact listed
  rw [read, same]

theorem Stores.worklistIds (stores : Stores store contents) :
    ∃ ids, store.worklist.keys.mapM idOfKey = .ok ids ∧ ∀ id, id ∈ ids ↔ id ∈ contents.worklist := by
  obtain ⟨ids, read, -, members⟩ := keys_mapM stores.worklist
  refine ⟨ids, read, fun id => (members id).trans ?_⟩
  unfold onWorklist
  split <;> simp_all

theorem Stores.putField {changed : PersistentStore} (stores : Stores store contents) {tag key field : String}
    {data : Bytes}
    (written : store.putField tag key field data = .ok changed) : Stores changed contents := by
  unfold PersistentStore.putField at written
  cases fields : store.fields tag key with
  | error failure =>
      rw [fields] at written
      cases written
  | ok before =>
      rw [fields] at written
      obtain rfl := Except.ok.inj written
      exact ⟨stores.lastId, stores.nodes, stores.plain, stores.names, stores.closures, stores.plainClosures,
        stores.worklist⟩

instance : LawfulGraphStore PersistentStore where
  Holds := Stores
  empty := stores_empty
  newId_eq stores := congrArg (· + 1) stores.lastId
  newId stores := stores.newId
  saveNodes nodes stores plain := stores.saveNodes plain
  node stores := stores.node
  nodes stores := stores.nodeTable
  nodeIds stores := stores.nodeIds
  idOfName stores := stores.idOfName
  saveClosures records stores plain := stores.saveAllClosures plain
  closures stores := stores.closuresOf
  closureTable stores := stores.closureTable
  worklist stores := stores.worklistIds
  clearWork stores := by
    refine ⟨stores.lastId, stores.nodes, stores.plain, stores.names, stores.closures, stores.plainClosures, ?_⟩
    exact .empty fun id => rfl
  dropClosures stores := stores.dropClosures
  putField tag key field data stores written := stores.putField written

end PersistentStore

end SupplyGraph
