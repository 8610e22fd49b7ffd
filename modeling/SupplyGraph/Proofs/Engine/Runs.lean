import SupplyGraph.Proofs.Engine.Agreement
import SupplyGraph.Proofs.Engine.Coherence

/-!
What holds of every store behind a run, as its reads show it: the tables agree with each other, and the closures
behind an empty worklist are exact.
-/

namespace SupplyGraph

open LawfulGraphStore (Holds)

def GraphStore.view {σ : Type} [GraphStore σ] (store : σ) : NodeView := fun id => (GraphStore.node store id).toOption

def NodeView.Reaches (view : NodeView) (direction : Direction) : NodeId → NodeId → Prop :=
  Relation.ReflTransGen fun id other => ∃ node, view id = some node ∧ other ∈ direction.edges node

theorem GraphStore.view_eq_some {σ : Type} [GraphStore σ] {store : σ} {id : NodeId} {node : Node} :
    GraphStore.view store id = some node ↔ GraphStore.node store id = .ok node := by
  unfold GraphStore.view
  cases GraphStore.node store id <;> simp [Except.toOption]

variable {σ : Type} [GraphStore σ] [LawfulGraphStore σ] {store : σ} {contents : MemoryStore} {generated : Nat}

namespace Engine

theorem node_eq_ok (holds : Holds store contents) {id : NodeId} {node : Node} :
    GraphStore.node store id = .ok node ↔ contents.nodes[id]? = some node := by
  rw [LawfulGraphStore.node holds, MemoryStore.node_eq_ok]

theorem idOfName_eq_ok (holds : Holds store contents) {name : String} {id : NodeId} :
    GraphStore.idOfName store name = .ok id ↔ contents.names[name]? = some id := by
  rw [LawfulGraphStore.idOfName holds, MemoryStore.idOfName_eq_ok]

theorem view_eq (holds : Holds store contents) : GraphStore.view store = (contents.nodes[·]?) := by
  funext id
  refine Option.ext fun node => ?_
  rw [GraphStore.view_eq_some, node_eq_ok holds]

theorem insertNode_stored (grounded : Grounded contents) (holds : Holds store contents) {new : NewNode} {id : NodeId}
    (known : contents.names[new.name]? = some id) :
    ∃ node, contents.nodes[id]? = some node ∧ insertNode new store = (.ok (node, false), store) := by
  obtain ⟨node, stored⟩ := getElem?_of_mem (grounded.stored new.name id known)
  have found : lookUp store new.name = .ok (some id) := by
    rw [lookUp_congr LawfulGraphStore.tracks holds, lookUp_eq, known]
  exact ⟨node, stored, insertNode_found found ((node_eq_ok holds).2 stored)⟩

theorem Consistent.edge_iff (consistent : Consistent generated contents) (direction : Direction)
    (id other : NodeId) :
    direction.Edge contents.nodes id other ↔ ∃ node, contents.nodes[id]? = some node ∧ other ∈ direction.edges node := by
  constructor
  · rintro ⟨node, found, leads, -⟩
    exact ⟨node, found, leads⟩
  · rintro ⟨node, found, leads⟩
    refine ⟨node, found, leads, Std.TreeMap.mem_iff_isSome_getElem?.2 ?_⟩
    cases direction with
    | children => exact consistent.wired.closed id node other found (Or.inl leads)
    | parents => exact consistent.wired.closed id node other found (Or.inr leads)

theorem Consistent.reaches_eq (consistent : Consistent generated contents) (direction : Direction) :
    NodeView.Reaches (contents.nodes[·]?) direction = direction.Reaches contents.nodes := by
  have edges : direction.Edge contents.nodes =
      fun id other => ∃ node, contents.nodes[id]? = some node ∧ other ∈ direction.edges node := by
    funext id other
    exact propext (consistent.edge_iff direction id other)
  rw [NodeView.Reaches, Direction.Reaches, edges]

/-- The tables of a store agree with each other, when some ids have been generated. -/
structure TablesAgree (generated : Nat) (store : σ) : Prop where
  nextId : (GraphStore.newId store).1.toNat = generated + 1
  mirrored : ∀ id other node neighbour, GraphStore.node store id = .ok node →
    GraphStore.node store other = .ok neighbour → (other ∈ node.children.ids ↔ id ∈ neighbour.parents.ids)
  no_loop : ∀ id node, GraphStore.node store id = .ok node → id ∉ node.children.ids ∧ id ∉ node.parents.ids
  closed : ∀ id node other, GraphStore.node store id = .ok node → other ∈ node.children.ids ∨ other ∈ node.parents.ids →
    ∃ neighbour, GraphStore.node store other = .ok neighbour
  own_id : ∀ id node, GraphStore.node store id = .ok node → node.id = id ∧ 1 ≤ id.toNat ∧ id.toNat ≤ generated
  named : ∀ name id, GraphStore.idOfName store name = .ok id ↔
    ∃ node, GraphStore.node store id = .ok node ∧ node.name = name

/-- Behind every run the tables agree, whatever calls were made and whichever of them failed. -/
theorem tablesAgree_of_reachable (reachable : Reachable generated store) (few : generated < UInt32.size - 1) :
    TablesAgree generated store := by
  obtain ⟨contents, described, holds⟩ := reachable.described (by omega)
  have consistent := described.consistent (by omega)
  constructor
  case nextId =>
    rw [LawfulGraphStore.newId_eq holds]
    change (contents.lastId + 1).toNat = _
    rw [UInt32.toNat_add, consistent.lastId]
    exact Nat.mod_eq_of_lt (Nat.add_lt_of_lt_sub few)
  case mirrored =>
    intro id other node neighbour found otherFound
    exact consistent.wired.mirrored id other node neighbour ((node_eq_ok holds).1 found)
      ((node_eq_ok holds).1 otherFound)
  case no_loop => exact fun id node found => consistent.wired.no_loop id node ((node_eq_ok holds).1 found)
  case closed =>
    intro id node other found neighbour
    have stored := consistent.wired.closed id node other ((node_eq_ok holds).1 found) neighbour
    obtain ⟨otherNode, otherFound⟩ := Option.isSome_iff_exists.1 stored
    exact ⟨otherNode, (node_eq_ok holds).2 otherFound⟩
  case own_id =>
    intro id node found
    have stored := (node_eq_ok holds).1 found
    have present : id ∈ contents.nodes := mem_of_getElem? stored
    exact ⟨(consistent.indexed id node stored).1, consistent.bounded id present⟩
  case named =>
    intro name id
    rw [idOfName_eq_ok holds]
    constructor
    · intro indexed
      obtain ⟨node, stored, named⟩ := consistent.named name id indexed
      exact ⟨node, (node_eq_ok holds).2 stored, named⟩
    · rintro ⟨node, found, rfl⟩
      exact (consistent.indexed id node ((node_eq_ok holds).1 found)).2

def pairStore : MemoryStore :=
  let operations : List Operation := [.addNode { type := "library", name := "parent" },
    .addNode { type := "library", name := "child" }, .setDependency 1 2]
  operations.foldl (fun store operation => operation.apply store) {}

theorem reachable_pairStore : Reachable 2 pairStore := by
  have first := Reachable.step 0 ({} : MemoryStore) (.addNode { type := "library", name := "parent" }) .empty
  have second := Reachable.step _ _ (.addNode { type := "library", name := "child" }) first
  exact Reachable.step _ _ (.setDependency 1 2) second

theorem tablesAgree_pairStore : Reachable 2 pairStore ∧ 2 < UInt32.size - 1 ∧ TablesAgree 2 pairStore ∧
    (pairStore.nodes[(1 : NodeId)]?).map (·.children.ids.toList) = some [2] := by
  have few : 2 < UInt32.size - 1 := by decide
  exact ⟨reachable_pairStore, few, tablesAgree_of_reachable reachable_pairStore few, by decide +kernel⟩

/-- Behind every run an empty worklist means that every node has closures, and that they are exact: no call leaves
closures behind that are missing or out of date without putting an id on the worklist. -/
theorem closures_exact_of_reachable (reachable : Reachable generated store) (few : generated < UInt32.size - 1)
    (empty : GraphStore.worklist store = .ok []) (id : NodeId) (node : Node)
    (stored : GraphStore.node store id = .ok node) :
    ∃ closures, GraphStore.closures store id = .ok closures ∧ ∀ other,
      (other ∈ closures.descendants ↔ (GraphStore.view store).Reaches .children id other) ∧
      (other ∈ closures.ancestors ↔ (GraphStore.view store).Reaches .parents id other) := by
  obtain ⟨contents, described, holds⟩ := reachable.described (by omega)
  have consistent := described.consistent (by omega)
  obtain ⟨ids, read, members⟩ := LawfulGraphStore.worklist holds
  obtain rfl := Except.ok.inj (empty.symm.trans read)
  have idle : contents.worklist = [] := List.eq_nil_iff_forall_not_mem.2 fun id listed => nomatch (members id).2 listed
  have present : id ∈ contents.nodes := mem_of_getElem? ((node_eq_ok holds).1 stored)
  obtain ⟨closures, found, exact⟩ := described.coherent (by omega) idle id present
  refine ⟨closures, ?_, fun other => ?_⟩
  · rw [LawfulGraphStore.closures holds, MemoryStore.closuresOf_eq_ok]
    exact found
  · rw [view_eq holds, consistent.reaches_eq, consistent.reaches_eq]
    exact ⟨exact .children other, exact .parents other⟩

def refreshedPair : MemoryStore := (Operation.rebuild .never).apply pairStore

theorem reachable_refreshedPair : Reachable 2 refreshedPair := .step 2 pairStore (.rebuild .never) reachable_pairStore

theorem closures_exact_pairStore : ∃ store : MemoryStore, Reachable 2 store ∧ store.worklist = [] ∧
    ∃ closures, store.closuresOf 1 = .ok closures ∧ ∀ other,
      (other ∈ closures.descendants ↔ (GraphStore.view store).Reaches .children 1 other) ∧
      (other ∈ closures.ancestors ↔ (GraphStore.view store).Reaches .parents 1 other) := by
  let store := (Operation.rebuild .never).apply pairStore
  have reachable : Reachable 2 store := .step 2 pairStore (.rebuild .never) reachable_pairStore
  have idle : ((Operation.rebuild .never).apply pairStore).worklist = [] := by decide +kernel
  have stored : (((Operation.rebuild .never).apply pairStore).nodes[(1 : NodeId)]?).isSome := by decide +kernel
  obtain ⟨node, found⟩ := Option.isSome_iff_exists.1 stored
  have few : 2 < UInt32.size - 1 := by decide
  exact ⟨store, reachable, idle, closures_exact_of_reachable reachable few (congrArg Except.ok idle) 1 node
    (MemoryStore.node_eq_ok.2 found)⟩

end Engine

end SupplyGraph
