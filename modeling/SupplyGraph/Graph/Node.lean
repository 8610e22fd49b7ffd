import SupplyGraph.Query.Expr
import SupplyGraph.Bytes
import SupplyGraph.Format.Bitmap
import Std.Data.TreeMap

/-!
Nodes of the dependency graph, and the closures stored for them.
-/

namespace SupplyGraph

structure Node where
  id : NodeId
  type : String
  name : String
  metadata : Bytes := []
  children : Bitmap := ∅
  parents : Bitmap := ∅
deriving DecidableEq

/-- What is reachable from a node against and along its dependencies, the node included. -/
structure Closures where
  id : NodeId
  ancestors : Bitmap := ∅
  descendants : Bitmap := ∅
deriving DecidableEq

namespace Direction

def opposite : Direction → Direction
  | children => parents
  | parents => children

def edges : Direction → Node → IdSet
  | children, node => node.children.ids
  | parents, node => node.parents.ids

def closure : Direction → Closures → IdSet
  | children, closures => closures.descendants.ids
  | parents, closures => closures.ancestors.ids

end Direction

abbrev NodeTable := Std.TreeMap NodeId Node

abbrev ClosureTable := Std.TreeMap NodeId Closures

end SupplyGraph
