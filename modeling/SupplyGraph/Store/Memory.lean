import SupplyGraph.Store.Interface

/-!
A graph store that holds nodes and closures as they are. Its worklist is a list, in which an id may stand more
than once.
-/

namespace SupplyGraph

structure MemoryStore where
  lastId : NodeId := 0
  nodes : NodeTable := ∅
  names : Std.TreeMap String NodeId := ∅
  closures : ClosureTable := ∅
  worklist : List NodeId := []
  custom : Std.TreeMap String (Std.TreeMap String FieldMap) := ∅

namespace MemoryStore

def newId (store : MemoryStore) : NodeId × MemoryStore :=
  let id := store.lastId + 1
  (id, { store with lastId := id })

def saveNode (store : MemoryStore) (node : Node) : MemoryStore :=
  { store with
    nodes := store.nodes.insert node.id node
    names := store.names.insert node.name node.id
    worklist := store.worklist ++ [node.id] }

def node (store : MemoryStore) (id : NodeId) : Outcome Node :=
  match store.nodes[id]? with
  | some node => .ok node
  | none => .error (.nodeNotFound id)

def nodeTable (store : MemoryStore) (ids : List NodeId) : NodeTable :=
  ids.foldl (fun found id =>
    match store.nodes[id]? with
    | some node => found.insert id node
    | none => found) ∅

def idOfName (store : MemoryStore) (name : String) : Outcome NodeId :=
  match store.names[name]? with
  | some id => .ok id
  | none => .error (.nameNotFound name)

def nodesMatching (store : MemoryStore) (pattern : Glob.Pattern) : List Node :=
  sortedById (store.nodes.filter fun _ node => pattern.accepts node.name)

def saveClosures (store : MemoryStore) (closures : Closures) : MemoryStore :=
  { store with closures := store.closures.insert closures.id closures }

def closuresOf (store : MemoryStore) (id : NodeId) : Outcome Closures :=
  match store.closures[id]? with
  | some closures => .ok closures
  | none => .error (.closuresNotFound id)

def closureTable (store : MemoryStore) (ids : List NodeId) : ClosureTable :=
  ids.foldl (fun found id =>
    match store.closures[id]? with
    | some closures => found.insert id closures
    | none => found) ∅

def pushWork (id : NodeId) (store : MemoryStore) : MemoryStore := { store with worklist := store.worklist ++ [id] }

def dropClosures (store : MemoryStore) : MemoryStore :=
  { store with closures := ∅, worklist := store.worklist ++ store.closures.keys }

def fields (tag key : String) (store : MemoryStore) : FieldMap := (store.custom.getD tag ∅).getD key ∅

def putField (tag key field : String) (data : Bytes) (store : MemoryStore) : MemoryStore :=
  let changed := (store.fields tag key).insert field data
  { store with custom := store.custom.insert tag ((store.custom.getD tag ∅).insert key changed) }

instance : GraphStore MemoryStore where
  empty := {}
  newId := newId
  saveNodes nodes store := nodes.foldl saveNode store
  node := node
  nodes store ids := .ok (store.nodeTable ids)
  nodeIds store := .ok store.nodes.keys
  idOfName := idOfName
  nodesMatching store pattern := .ok (store.nodesMatching pattern)
  saveClosures closures store := closures.foldl saveClosures store
  closures := closuresOf
  closureTable store ids := .ok (store.closureTable ids)
  worklist store := .ok store.worklist
  pushWork := pushWork
  clearWork store := { store with worklist := [] }
  dropClosures := dropClosures
  putField tag key field data store := .ok (store.putField tag key field data)
  fields tag key store := .ok (store.fields tag key)

end MemoryStore

end SupplyGraph
