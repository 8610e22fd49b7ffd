import SupplyGraph.Graph.Node
import SupplyGraph.Proofs.Store.Table
import Mathlib.Logic.Relation

/-!
Paths in a table of nodes. They run from stored node to stored node; an edge to an id without a node leads
nowhere.
-/

namespace SupplyGraph
open Relation

namespace Direction

def Edge (nodes : NodeTable) (direction : Direction) (id other : NodeId) : Prop :=
  ∃ node, nodes[id]? = some node ∧ other ∈ direction.edges node ∧ other ∈ nodes

def Reaches (nodes : NodeTable) (direction : Direction) : NodeId → NodeId → Prop := ReflTransGen (direction.Edge nodes)

end Direction

/-- Every edge between two stored nodes is recorded at both of its ends. -/
def NodeTable.Mirrored (nodes : NodeTable) : Prop :=
  ∀ (id other : NodeId) (node neighbour : Node), nodes[id]? = some node → nodes[other]? = some neighbour →
    (other ∈ node.children.ids ↔ id ∈ neighbour.parents.ids)

theorem NodeTable.mirrored_iff_toList (nodes : NodeTable) :
    nodes.Mirrored ↔ ∀ entry ∈ nodes.toList, ∀ other ∈ nodes.toList,
      (other.1 ∈ entry.2.children.ids ↔ entry.1 ∈ other.2.parents.ids) := by
  simp only [Mirrored, Prod.forall, Std.TreeMap.mem_toList_iff_getElem?_eq_some]
  exact ⟨fun mirrored id node found other neighbour => mirrored id other node neighbour found,
    fun mirrored id other node neighbour found => mirrored id node found other neighbour⟩

instance (nodes : NodeTable) : Decidable nodes.Mirrored := decidable_of_iff _ nodes.mirrored_iff_toList.symm

namespace Direction

variable {nodes : NodeTable}

theorem edge_congr {other : NodeTable} (same : ∀ id : NodeId, nodes[id]? = other[id]?) (direction : Direction) :
    direction.Edge nodes = direction.Edge other := by
  funext id neighbour
  simp only [Edge, Std.TreeMap.mem_iff_isSome_getElem?, same]

theorem edge_opposite (mirrored : nodes.Mirrored) (id other : NodeId) :
    Direction.parents.Edge nodes id other ↔ Direction.children.Edge nodes other id := by
  constructor
  · rintro ⟨node, found, isParent, present⟩
    obtain ⟨neighbour, otherFound⟩ := getElem?_of_mem present
    refine ⟨neighbour, otherFound, (mirrored other id neighbour node otherFound found).2 isParent, ?_⟩
    exact mem_of_getElem? found
  · rintro ⟨neighbour, otherFound, isChild, present⟩
    obtain ⟨node, found⟩ := getElem?_of_mem present
    refine ⟨node, found, (mirrored other id neighbour node otherFound found).1 isChild, ?_⟩
    exact mem_of_getElem? otherFound

theorem reaches_opposite (mirrored : nodes.Mirrored) (id other : NodeId) :
    Direction.parents.Reaches nodes id other ↔ Direction.children.Reaches nodes other id := by
  have swapped : Direction.parents.Edge nodes = Function.swap (Direction.children.Edge nodes) := by
    funext id other
    exact propext (edge_opposite mirrored id other)
  rw [Reaches, Reaches, swapped]
  exact reflTransGen_swap

end Direction

end SupplyGraph
