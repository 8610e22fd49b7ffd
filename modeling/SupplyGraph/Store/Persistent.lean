import SupplyGraph.Format.Record
import SupplyGraph.Store.Interface
import SupplyGraph.Text.Repair

/-!
A graph store that holds records in ordered tables of bytes, as they lie in a file. A key of an id is its four
bytes, the highest first, so keys and ids have one order. Reading a record may fail, whatever the tables hold.
-/

namespace SupplyGraph

abbrev ByteTable := Std.TreeMap Bytes Bytes

structure PersistentStore where
  nodes : ByteTable := ∅
  names : ByteTable := ∅
  closures : ByteTable := ∅
  /-- The worklist, as the keys of empty records. -/
  worklist : ByteTable := ∅
  custom : ByteTable := ∅
  counters : ByteTable := ∅

namespace PersistentStore

def keyOfId (id : NodeId) : Bytes := Bytes.bigEndian 4 id.toNat

def idOfKey (key : Bytes) : Outcome NodeId :=
  if key.length = 4 then .ok (UInt32.ofNat (Bytes.ofBigEndian key))
  else .error (.corruptRecord s!"id key of {key.length} bytes")

def lastIdKey : Bytes := Bytes.ofString "last_id"

/-- A tag and a key in one, with a zero byte between them. -/
def customKey (tag key : String) : Bytes := Bytes.ofString tag ++ [0] ++ Bytes.ofString key

/-- The id handed out last; anything that is no id counts as zero. -/
def lastId (store : PersistentStore) : NodeId :=
  match store.counters[lastIdKey]? with
  | some record => (idOfKey record).toOption.getD 0
  | none => 0

def newId (store : PersistentStore) : NodeId × PersistentStore :=
  let id := store.lastId + 1
  (id, { store with counters := store.counters.insert lastIdKey (keyOfId id) })

def saveNode (store : PersistentStore) (node : Node) : PersistentStore :=
  { store with
    nodes := store.nodes.insert (keyOfId node.id) node.toJson
    names := store.names.insert (Bytes.ofString node.name) (keyOfId node.id)
    worklist := store.worklist.insert (keyOfId node.id) [] }

def node (store : PersistentStore) (id : NodeId) : Outcome Node :=
  match store.nodes[keyOfId id]? with
  | some record => Node.ofJson record
  | none => .error (.nodeNotFound id)

def nodeTable (store : PersistentStore) (ids : List NodeId) : Outcome NodeTable :=
  ids.foldlM (fun found id =>
    match store.nodes[keyOfId id]? with
    | some record => do return found.insert id (← Node.ofJson record)
    | none => .ok found) ∅

def idOfName (store : PersistentStore) (name : String) : Outcome NodeId :=
  match store.names[Bytes.ofString name]? with
  | some key => idOfKey key
  | none => .error (.nameNotFound name)

def nodesMatching (store : PersistentStore) (pattern : Glob.Pattern) : Outcome (List Node) := do
  let found := store.names.toList.filter fun (name, _) => pattern.matchesBytes (Text.repair name)
  let ids ← found.mapM fun (_, key) => idOfKey key
  return sortedById (← store.nodeTable ids)

def saveClosures (store : PersistentStore) (closures : Closures) : PersistentStore :=
  { store with closures := store.closures.insert (keyOfId closures.id) closures.toJson }

def closuresOf (store : PersistentStore) (id : NodeId) : Outcome Closures :=
  match store.closures[keyOfId id]? with
  | some record => Closures.ofJson record
  | none => .error (.closuresNotFound id)

def closureTable (store : PersistentStore) (ids : List NodeId) : Outcome ClosureTable :=
  ids.foldlM (fun found id =>
    match store.closures[keyOfId id]? with
    | some record => do return found.insert id (← Closures.ofJson record)
    | none => .ok found) ∅

def pushWork (id : NodeId) (store : PersistentStore) : PersistentStore :=
  { store with worklist := store.worklist.insert (keyOfId id) [] }

/-- Moves the keys of the closures to the worklist as they are. -/
def dropClosures (store : PersistentStore) : PersistentStore :=
  { store with
    closures := ∅
    worklist := store.closures.keys.foldl (fun worklist key => worklist.insert key []) store.worklist }

def fields (tag key : String) (store : PersistentStore) : Outcome FieldMap :=
  match store.custom[customKey tag key]? with
  | none => .ok ∅
  | some record =>
    match FieldMap.decode record with
    | some fields => .ok fields
    | none => .error (.serialization "malformed field map")

def putField (tag key field : String) (data : Bytes) (store : PersistentStore) : Outcome PersistentStore := do
  let fields ← store.fields tag key
  return { store with custom := store.custom.insert (customKey tag key) (FieldMap.encode (fields.insert field data)) }

/-- A database on disk: its tables by their names. -/
abbrev Database := Std.TreeMap String ByteTable

def toDatabase (store : PersistentStore) : Database :=
  Std.TreeMap.ofList [("nodes", store.nodes), ("names", store.names), ("caches", store.closures),
    ("uncached", store.worklist), ("custom", store.custom), ("meta", store.counters)]

/-- Opens the tables of a database; those that are missing are made, and are empty. -/
def ofDatabase (database : Database) : PersistentStore where
  nodes := database.getD "nodes" ∅
  names := database.getD "names" ∅
  closures := database.getD "caches" ∅
  worklist := database.getD "uncached" ∅
  custom := database.getD "custom" ∅
  counters := database.getD "meta" ∅

/-- Closes the database of a store and opens it again. -/
def reopen (store : PersistentStore) : PersistentStore := ofDatabase store.toDatabase

instance : GraphStore PersistentStore where
  empty := {}
  newId := newId
  saveNodes nodes store := nodes.foldl saveNode store
  node := node
  nodes := nodeTable
  nodeIds store := store.nodes.keys.mapM idOfKey
  idOfName := idOfName
  nodesMatching := nodesMatching
  saveClosures closures store := closures.foldl saveClosures store
  closures := closuresOf
  closureTable := closureTable
  worklist store := store.worklist.keys.mapM idOfKey
  pushWork := pushWork
  clearWork store := { store with worklist := ∅ }
  dropClosures := dropClosures
  putField := putField
  fields := fields

end PersistentStore

end SupplyGraph
