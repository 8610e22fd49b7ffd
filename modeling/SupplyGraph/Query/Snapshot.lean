import SupplyGraph.Graph.Node
import SupplyGraph.Query.Evaluation

/-!
Snapshots: all nodes and closures of a graph, loaded once and then queried any number of times.
-/

namespace SupplyGraph.Query

def idsOfType (nodes : List Node) (type : String) : IdSet :=
  IdSet.ofList ((nodes.filter fun node => node.type == type).map (·.id))

structure Snapshot where
  nodes : NodeTable
  closures : ClosureTable

namespace Snapshot

def size (snapshot : Snapshot) : Nat := snapshot.nodes.size

def isEmpty (snapshot : Snapshot) : Bool := snapshot.nodes.isEmpty

def names (snapshot : Snapshot) : Std.TreeMap String NodeId :=
  snapshot.nodes.values.foldl (fun names node => names.insert node.name node.id) ∅

def lookUpClosures (closures : ClosureTable) (direction : Direction) (ids : List NodeId) :
    Outcome (Std.TreeMap NodeId IdSet) :=
  ids.foldlM (fun found id =>
    match closures[id]? with
    | some closures => .ok (found.insert id (direction.closure closures))
    | none => .error (.closuresNotFound id)) ∅

def source (snapshot : Snapshot) : NodeSource :=
  let names := snapshot.names
  { resolve := fun name =>
      match names[name]? with
      | some id => .ok id
      | none => .error (.nameNotFound name)
    closures := lookUpClosures snapshot.closures
    retainType := fun ids type => .ok (idsOfType (ids.toList.filterMap (snapshot.nodes[·]?)) type) }

end Snapshot

end SupplyGraph.Query
