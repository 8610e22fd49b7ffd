import SupplyGraph.Graph.Reachable
import SupplyGraph.Query.Snapshot
import SupplyGraph.Store.Interface

/-!
Queries on a store itself. When the worklist is empty the stored closures are up to date and each is one look
up; otherwise a closure is searched, one frontier after the other.
-/

namespace SupplyGraph.Query

variable {σ : Type} [GraphStore σ]

def neighbours (store : σ) (direction : Direction) (ids : IdSet) : Outcome IdSet := do
  let nodes ← GraphStore.nodes store ids.toList
  return nodes.values.foldl (fun found node => found ∪ direction.edges node) ∅

def searchClosure (store : σ) (direction : Direction) (id : NodeId) : Outcome IdSet :=
  reachable (neighbours store direction) (IdSet.singleton id)

def searchClosures (store : σ) (direction : Direction) (ids : List NodeId) : Outcome (Std.TreeMap NodeId IdSet) :=
  ids.foldlM (fun found id => do return found.insert id (← searchClosure store direction id)) ∅

/-- Takes the closures of each id out of a table, so an id asked for twice is missing the second time. -/
def takeClosures (direction : Direction) (found : Std.TreeMap NodeId IdSet) (table : ClosureTable) :
    List NodeId → Outcome (Std.TreeMap NodeId IdSet)
  | [] => .ok found
  | id :: rest =>
    match table[id]? with
    | some closures => takeClosures direction (found.insert id (direction.closure closures)) (table.erase id) rest
    | none => .error (.closuresNotFound id)

def readClosures (store : σ) (direction : Direction) (ids : List NodeId) : Outcome (Std.TreeMap NodeId IdSet) := do
  takeClosures direction ∅ (← GraphStore.closureTable store ids) ids

/-- Reads from a store, through its closures or not. -/
def liveSource (coherent : Bool) (store : σ) : NodeSource where
  resolve := GraphStore.idOfName store
  closures := if coherent then readClosures store else searchClosures store
  retainType ids type := do return idsOfType (← GraphStore.nodes store ids.toList).values type

def Snapshot.load (store : σ) : Outcome Snapshot := do
  let ids ← GraphStore.nodeIds store
  return { nodes := ← GraphStore.nodes store ids, closures := ← GraphStore.closureTable store ids }

end SupplyGraph.Query
