import SupplyGraph.Format.FieldMap
import SupplyGraph.Glob.Matching
import SupplyGraph.Graph.Node

/-!
What a graph store offers. A store is a value: writing gives the changed store, and a read that fails leaves
nothing behind. The worklist holds the ids whose closures are out of date.
-/

namespace SupplyGraph

class GraphStore (σ : Type) where
  empty : σ
  newId : σ → NodeId × σ
  /-- Puts nodes in place, indexes their names and puts their ids on the worklist. -/
  saveNodes : List Node → σ → σ
  node : σ → NodeId → Outcome Node
  nodes : σ → List NodeId → Outcome NodeTable
  nodeIds : σ → Outcome (List NodeId)
  idOfName : σ → String → Outcome NodeId
  nodesMatching : σ → Glob.Pattern → Outcome (List Node)
  saveClosures : List Closures → σ → σ
  closures : σ → NodeId → Outcome Closures
  closureTable : σ → List NodeId → Outcome ClosureTable
  worklist : σ → Outcome (List NodeId)
  pushWork : NodeId → σ → σ
  clearWork : σ → σ
  /-- Drops all closures and puts their ids on the worklist. -/
  dropClosures : σ → σ
  putField (tag key field : String) (data : Bytes) : σ → Outcome σ
  fields (tag key : String) : σ → Outcome FieldMap

def isCoherent {σ : Type} [GraphStore σ] (store : σ) : Outcome Bool := return (← GraphStore.worklist store).isEmpty

def sortedById (nodes : NodeTable) : List Node := nodes.values.mergeSort fun left right => left.id ≤ right.id

end SupplyGraph
