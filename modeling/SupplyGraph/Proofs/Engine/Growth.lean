import SupplyGraph.Proofs.Engine.EdgeSets
import SupplyGraph.Proofs.Engine.Runs

/-!
The graph only grows. Every change of a memory store keeps the nodes with their own data and their names, adds to
their edges, and gives a new node an id above all earlier ones. So does every run, on any store.
-/

namespace SupplyGraph.Engine

open LawfulGraphStore (Holds tracks)
open NodeView (Kept)

/-- The same node, perhaps with more edges. -/
structure Extends (before after : Node) : Prop extends Kept before after where
  children : ∀ other ∈ before.children.ids, other ∈ after.children.ids
  parents : ∀ other ∈ before.parents.ids, other ∈ after.parents.ids

theorem Extends.refl (node : Node) : Extends node node := ⟨.refl node, fun _ => id, fun _ => id⟩

theorem Extends.trans {before between after : Node} (first : Extends before between)
    (second : Extends between after) : Extends before after where
  toKept := first.toKept.trans second.toKept
  children other member := second.children other (first.children other member)
  parents other member := second.parents other (first.parents other member)

theorem addEdges_extends (view : NodeView) (edges : List (NodeId × NodeId)) {id : NodeId} {before : Node}
    (present : view id = some before) : ∃ after, view.addEdges edges id = some after ∧ Extends before after := by
  obtain ⟨after, found, withEdges⟩ := NodeView.addEdges_withEdges view edges present
  exact ⟨after, found, withEdges.kept, fun other member => (withEdges.children other).2 (.inl member),
    fun other member => (withEdges.parents other).2 (.inl member)⟩

structure Grows (before after : MemoryStore) : Prop where
  nodes : ∀ (id : NodeId) node, before.nodes[id]? = some node → ∃ now, after.nodes[id]? = some now ∧ Extends node now
  names : ∀ (name : String) id, before.names[name]? = some id → after.names[name]? = some id
  lastId : before.lastId ≤ after.lastId
  newer : ∀ id ∈ after.nodes, id ∉ before.nodes → before.lastId < id

variable {generated ids : Nat} {before between after store : MemoryStore}

theorem Grows.mem (grows : Grows before after) {id : NodeId} (present : id ∈ before.nodes) : id ∈ after.nodes := by
  obtain ⟨node, found⟩ := getElem?_of_mem present
  obtain ⟨now, kept, -⟩ := grows.nodes id node found
  exact mem_of_getElem? kept

theorem Grows.of_same (nodes : after.nodes = before.nodes) (names : after.names = before.names)
    (lastId : after.lastId = before.lastId) : Grows before after where
  nodes _ node found := ⟨node, nodes ▸ found, .refl node⟩
  names _ _ found := names ▸ found
  lastId := lastId ▸ UInt32.le_refl _
  newer _ present absent := absurd (nodes ▸ present) absent

theorem Grows.refl (store : MemoryStore) : Grows store store := .of_same rfl rfl rfl

theorem Grows.trans (first : Grows before between) (second : Grows between after) : Grows before after where
  nodes id node found := by
    obtain ⟨middle, middleFound, earlier⟩ := first.nodes id node found
    obtain ⟨last, lastFound, later⟩ := second.nodes id middle middleFound
    exact ⟨last, lastFound, earlier.trans later⟩
  names name id found := second.names name id (first.names name id found)
  lastId := UInt32.le_trans first.lastId second.lastId
  newer id present absent := by
    by_cases known : id ∈ between.nodes
    · exact first.newer id known absent
    · exact UInt32.lt_of_le_of_lt first.lastId (second.newer id present known)

theorem Consistent.grows_withNode (consistent : Consistent generated store) (few : generated + 1 < UInt32.size)
    {new : NewNode} (unknown : store.names[new.name]? = none) : Grows store (Engine.withNode new store) := by
  obtain ⟨nextId, free⟩ := consistent.next few
  have larger : store.lastId < store.lastId + 1 := by
    rw [UInt32.lt_iff_toNat_lt, consistent.lastId, nextId]
    exact Nat.lt_succ_self generated
  constructor
  case lastId => exact UInt32.le_of_lt larger
  case nodes =>
    intro id node found
    refine ⟨node, ?_, .refl node⟩
    rw [getElem?_nodes_withNode, if_neg, found]
    exact fun same => free (same ▸ mem_of_getElem? found)
  case names =>
    intro name id found
    rw [getElem?_names_withNode, if_neg, found]
    rintro rfl
    rw [unknown] at found
    cases found
  case newer =>
    intro id present absent
    rcases Std.TreeMap.mem_insert.1 present with isNew | old
    · exact Std.compare_eq_iff_eq.1 isNew ▸ larger
    · exact absurd old absent

theorem Consistent.grows_change (consistent : Consistent generated before) (change : Change before ids after)
    (few : generated + ids < UInt32.size) : Grows before after := by
  cases change with
  | insert new unknown => exact consistent.grows_withNode few unknown
  | link edges after present linked =>
      constructor
      case lastId => exact linked.lastId ▸ UInt32.le_refl _
      case nodes =>
        intro id node found
        rw [linked.nodes]
        exact addEdges_extends _ edges found
      case names => exact fun name id found => (linked.names name).trans found
      case newer => exact fun id present absent => absurd ((linked.mem_nodes id).1 present) absent
  | custom tag key field data => exact .of_same rfl rfl rfl

theorem Consistent.grows_changes (consistent : Consistent generated before) (changes : Changes before ids after)
    (few : generated + ids < UInt32.size) : Grows before after := by
  induction changes with
  | none => exact .refl before
  | more earlier between ids after made change ih =>
      rw [← Nat.add_assoc] at few
      exact (ih (by omega)).trans ((consistent.changes made (by omega)).grows_change change few)

theorem Consistent.grows_effect {operation : Operation} (consistent : Consistent generated before)
    (effect : Effect operation before after) (few : generated + operation.ids before < UInt32.size) :
    Grows before after := by
  cases effect with
  | changed after changes => exact consistent.grows_changes changes few
  | refreshed after _ refreshed =>
      obtain ⟨lastId, nodes, names⟩ := refreshed.graph
      exact .of_same nodes names lastId
  | dropped _ => exact .of_same rfl rfl rfl

variable {σ : Type} [GraphStore σ] [LawfulGraphStore σ] {store : σ} {contents : MemoryStore}

theorem Consistent.grows_run (consistent : Consistent generated contents) (holds : Holds store contents)
    (operations : List Operation) (few : generated + idsOfRun operations store < UInt32.size) :
    ∃ later, Holds (run operations store) later ∧ Grows contents later := by
  induction operations generalizing generated store contents with
  | nil => exact ⟨contents, holds, .refl contents⟩
  | cons operation rest ih =>
      rw [idsOfRun, ← Nat.add_assoc] at few
      have sameIds := operation.ids_congr tracks holds
      obtain ⟨next, described, effect⟩ := operation.apply_described consistent holds
      obtain ⟨later, laterHolds, grows⟩ := ih (consistent.effect effect (by omega)) described (by omega)
      exact ⟨later, laterHolds, (consistent.grows_effect effect (by omega)).trans grows⟩

theorem Consistent.lt_of_newer {later : MemoryStore} {next : σ} (consistent : Consistent generated contents)
    (grows : Grows contents later) (holds : Holds store contents) (laterHolds : Holds next later) {id : NodeId}
    {now : Node} (foundNow : GraphStore.node next id = .ok now) (absent : ∀ node, GraphStore.node store id ≠ .ok node) :
    generated < id.toNat := by
  have isNew : id ∉ contents.nodes := by
    intro present
    obtain ⟨node, known⟩ := getElem?_of_mem present
    exact absent node ((node_eq_ok holds).2 known)
  have above := grows.newer id (mem_of_getElem? ((node_eq_ok laterHolds).1 foundNow)) isNew
  rwa [UInt32.lt_iff_toNat_lt, consistent.lastId] at above

theorem insertNodes_filter {start : MemoryStore} (grows : Grows start contents)
    (consistent : Consistent generated contents) (holds : Holds store contents) (nodes : List NewNode)
    (few : generated + idsOfNodes nodes contents < UInt32.size) :
    insertNodes nodes store = insertNodes (nodes.filter fun new => start.names[new.name]?.isNone) store := by
  unfold insertNodes
  -- Both folds count from zero on; the induction needs every number.
  generalize 0 = count
  induction nodes generalizing generated store contents count with
  | nil => rfl
  | cons new nodes ih =>
      obtain ⟨⟨node, created⟩, between, ran, changes⟩ := consistent.grounded.insertNode new
      obtain ⟨same, after⟩ := insertNode_agrees tracks holds new
      rcases done : insertNode new store with ⟨result, next⟩
      rw [ran, done] at same after
      obtain rfl : result = .ok (node, created) := same
      have holdsNext : Holds next between := after
      simp only [idsOfNodes, ran, ← Nat.add_assoc] at few
      have larger := grows.trans (consistent.grows_changes changes (by omega))
      have rest := ih larger (consistent.changes changes (by omega)) holdsNext few
      have counted (count : Nat) : (do
          let made ← insertNode new
          return if made.2 then count + 1 else count : Update σ Nat) store =
          (.ok (if created then count + 1 else count), next) := Update.bind_ok done
      rw [List.foldlM_cons]
      refine (Update.bind_ok (counted count)).trans ((rest _).trans ?_)
      cases known : start.names[new.name]? with
      | some id =>
          obtain ⟨_, _, unchanged⟩ := insertNode_stored consistent.grounded holds (grows.names new.name id known)
          obtain ⟨made, rfl⟩ := Prod.mk.inj (done.symm.trans unchanged)
          obtain ⟨-, rfl⟩ := Prod.mk.inj (Except.ok.inj made)
          rw [List.filter_cons_of_neg (by simp [known])]
          rfl
      | none =>
          rw [List.filter_cons_of_pos (by simp [known]), List.foldlM_cons]
          symm
          exact Update.bind_ok (counted count)

/-- Behind every run, whatever is done next: a node stays under its id and its name with its own data and at least
its edges, later nodes have larger ids, and a node that is added again is the one that is there. -/
theorem graph_grows (reachable : Reachable generated store) (operations : List Operation)
    (few : generated + idsOfRun operations store < UInt32.size - 1) :
    (∀ id node, GraphStore.node store id = .ok node →
      (∃ now, GraphStore.node (run operations store) id = .ok now ∧ Extends node now) ∧
      GraphStore.idOfName (run operations store) node.name = .ok id) ∧
    (∀ old node id now, GraphStore.node store old = .ok node → GraphStore.node (run operations store) id = .ok now →
      (∀ node, GraphStore.node store id ≠ .ok node) → old < id) ∧
    (∀ new id, GraphStore.idOfName store new.name = .ok id →
      ∃ node, GraphStore.node store id = .ok node ∧ addNode new store = (.ok node, store)) ∧
    ∀ batch, generated + idsOfNodes batch.nodes store < UInt32.size - 1 →
      ingest batch store = ingest { batch with
        nodes := batch.nodes.filter fun new => (GraphStore.idOfName store new.name).toOption.isNone } store := by
  obtain ⟨contents, described, holds⟩ := reachable.described (by omega)
  have consistent := described.consistent (by omega)
  obtain ⟨later, laterHolds, grows⟩ := consistent.grows_run holds operations (by omega)
  refine ⟨?kept, ?newer, ?addNode, ?ingest⟩
  case kept =>
    intro id node found
    have stored := (node_eq_ok holds).1 found
    obtain ⟨now, present, larger⟩ := grows.nodes id node stored
    have named := grows.names node.name id (consistent.indexed id node stored).2
    exact ⟨⟨now, (node_eq_ok laterHolds).2 present, larger⟩, (idOfName_eq_ok laterHolds).2 named⟩
  case newer =>
    intro old node id now found foundNow absent
    have most := (consistent.bounded old (mem_of_getElem? ((node_eq_ok holds).1 found))).2
    have above := consistent.lt_of_newer grows holds laterHolds foundNow absent
    exact UInt32.lt_iff_toNat_lt.2 (Nat.lt_of_le_of_lt most above)
  case addNode =>
    intro new id known
    obtain ⟨node, found, unchanged⟩ := insertNode_stored consistent.grounded holds ((idOfName_eq_ok holds).1 known)
    exact ⟨node, (node_eq_ok holds).2 found, Update.bind_ok unchanged⟩
  case ingest =>
    intro batch batchFew
    rw [idsOfNodes_congr tracks holds] at batchFew
    have unknown (name : String) :
        (GraphStore.idOfName store name).toOption.isNone = contents.names[name]?.isNone := by
      rw [LawfulGraphStore.idOfName holds, MemoryStore.idOfName]
      cases contents.names[name]? <;> rfl
    have same := insertNodes_filter (.refl contents) consistent holds batch.nodes (by omega)
    simp only [unknown]
    unfold ingest
    exact Update.bind_congr same

theorem graph_grows_pairStore :
    let operations : List Operation := [.addNode { type := "library", name := "other" }, .setDependency 1 3]
    Reachable 2 pairStore ∧ 2 + idsOfRun operations pairStore < UInt32.size - 1 ∧
    ∃ node, pairStore.node 1 = .ok node ∧ node.name = "parent" ∧
      (∃ now, (run operations pairStore).node 1 = .ok now ∧ Extends node now ∧ now.children.ids.toList = [2, 3]) ∧
      (run operations pairStore).idOfName node.name = .ok 1 := by
  intro operations
  have few : 2 + idsOfRun operations pairStore < UInt32.size - 1 := by decide +kernel
  have stored : (pairStore.nodes[(1 : NodeId)]?).map (·.name) = some "parent" := by decide +kernel
  have edges : ((run operations pairStore).nodes[(1 : NodeId)]?).map (·.children.ids.toList) = some [2, 3] := by
    decide +kernel
  obtain ⟨node, found, named⟩ := Option.map_eq_some_iff.1 stored
  have known : GraphStore.node pairStore 1 = .ok node := MemoryStore.node_eq_ok.2 found
  obtain ⟨⟨now, foundNow, larger⟩, name⟩ := (graph_grows reachable_pairStore operations few).1 1 node known
  refine ⟨reachable_pairStore, few, node, known, named, ⟨now, foundNow, larger, ?_⟩, name⟩
  rw [MemoryStore.node_eq_ok.1 foundNow] at edges
  exact Option.some.inj edges

end SupplyGraph.Engine
