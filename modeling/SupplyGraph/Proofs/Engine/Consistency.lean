import SupplyGraph.Proofs.Engine.Link
import SupplyGraph.Proofs.Engine.Operation
import SupplyGraph.Proofs.Format.Bitmap

/-!
The tables of a memory store agree with each other behind every run: an edge stands at both of its ends, leads to a
stored node and never back to its start, and the names lead to the nodes that have them.
-/

namespace SupplyGraph

namespace NodeView

theorem addEdge_plain {view : NodeView} (plain : ∀ id node, view id = some node → node.Plain)
    {edge : NodeId × NodeId}
    {id : NodeId} {node : Node} (found : view.addEdge edge id = some node) : node.Plain := by
  unfold addEdge at found
  split at found
  · exact plain id node found
  · dsimp only at found
    split at found
    · obtain ⟨before, present, rfl⟩ := Option.map_eq_some_iff.1 found
      exact ⟨(plain id before present).1.insert _, (plain id before present).2⟩
    · split at found
      · obtain ⟨before, present, rfl⟩ := Option.map_eq_some_iff.1 found
        exact ⟨(plain id before present).1, (plain id before present).2.insert _⟩
      · exact plain id node found

theorem addEdges_plain {view : NodeView} (plain : ∀ id node, view id = some node → node.Plain)
    {edges : List (NodeId × NodeId)} : ∀ id node, view.addEdges edges id = some node → node.Plain := by
  induction edges generalizing view with
  | nil => exact plain
  | cons edge edges ih => exact ih fun id node found => addEdge_plain plain found

structure Wired (view : NodeView) : Prop where
  mirrored : ∀ id other node neighbour, view id = some node → view other = some neighbour →
    (other ∈ node.children.ids ↔ id ∈ neighbour.parents.ids)
  no_loop : ∀ id node, view id = some node → id ∉ node.children.ids ∧ id ∉ node.parents.ids
  closed : ∀ id node other, view id = some node → other ∈ node.children.ids ∨ other ∈ node.parents.ids →
    (view other).isSome

theorem addEdge_edges {view : NodeView} {edge : NodeId × NodeId} (different : edge.1 ≠ edge.2) {id : NodeId}
    {after : Node} (found : view.addEdge edge id = some after) :
    ∃ before, view id = some before ∧
      (∀ other, other ∈ after.children.ids ↔ other ∈ before.children.ids ∨ id = edge.1 ∧ other = edge.2) ∧
      ∀ other, other ∈ after.parents.ids ↔ other ∈ before.parents.ids ∨ id = edge.2 ∧ other = edge.1 := by
  rw [addEdge, if_neg different] at found
  split at found
  · rename_i isStart
    obtain ⟨before, present, rfl⟩ := Option.map_eq_some_iff.1 found
    refine ⟨before, present, fun other => ?_, fun other => ?_⟩
    · simp [isStart, or_comm]
    · simp [isStart, different]
  · rename_i notStart
    split at found
    · rename_i isEnd
      obtain ⟨before, present, rfl⟩ := Option.map_eq_some_iff.1 found
      refine ⟨before, present, fun other => ?_, fun other => ?_⟩
      · simp [notStart]
      · simp [isEnd, or_comm]
    · rename_i notEnd
      exact ⟨after, found, fun other => by simp [notStart], fun other => by simp [notEnd]⟩

theorem Wired.addEdge {view : NodeView} (wired : view.Wired) {edge : NodeId × NodeId}
    (ends : edge.1 ≠ edge.2 → (view edge.1).isSome ∧ (view edge.2).isSome) : (view.addEdge edge).Wired := by
  by_cases loop : edge.1 = edge.2
  · rwa [NodeView.addEdge, if_pos loop]
  constructor
  case mirrored =>
    intro id other node neighbour found otherFound
    obtain ⟨before, present, children, -⟩ := addEdge_edges loop found
    obtain ⟨otherBefore, otherPresent, -, parents⟩ := addEdge_edges loop otherFound
    rw [children, parents, wired.mirrored id other before otherBefore present otherPresent, and_comm (a := id = edge.1)]
  case no_loop =>
    intro id node found
    obtain ⟨before, present, children, parents⟩ := addEdge_edges loop found
    obtain ⟨notChild, notParent⟩ := wired.no_loop id before present
    rw [children, parents, not_or, not_or]
    refine ⟨⟨notChild, ?_⟩, notParent, ?_⟩
    · rintro ⟨isStart, isEnd⟩
      exact loop (isStart.symm.trans isEnd)
    · rintro ⟨isEnd, isStart⟩
      exact loop (isStart.symm.trans isEnd)
  case closed =>
    intro id node other found neighbour
    obtain ⟨before, present, children, parents⟩ := addEdge_edges loop found
    rw [isSome_addEdge]
    rw [children, parents] at neighbour
    rcases neighbour with (old | ⟨-, rfl⟩) | (old | ⟨-, rfl⟩)
    · exact wired.closed id before other present (Or.inl old)
    · exact (ends loop).2
    · exact wired.closed id before other present (Or.inr old)
    · exact (ends loop).1

theorem Wired.addEdges {view : NodeView} (wired : view.Wired) {edges : List (NodeId × NodeId)}
    (ends : ∀ edge ∈ edges, edge.1 ≠ edge.2 → (view edge.1).isSome ∧ (view edge.2).isSome) :
    (view.addEdges edges).Wired := by
  induction edges generalizing view with
  | nil => exact wired
  | cons edge edges ih =>
      refine ih (wired.addEdge (ends edge (List.mem_cons_self ..))) fun other member different => ?_
      rw [isSome_addEdge, isSome_addEdge]
      exact ends other (List.mem_cons_of_mem _ member) different

theorem Wired.insert {view larger : NodeView} (wired : view.Wired) {id : NodeId} {node : Node}
    (free : view id = none) (isolated : node.children = ∅ ∧ node.parents = ∅) (here : larger id = some node)
    (elsewhere : ∀ other, other ≠ id → larger other = view other) : larger.Wired := by
  have found {other : NodeId} {neighbour : Node} (present : larger other = some neighbour) :
      (other = id ∧ neighbour = node) ∨ view other = some neighbour := by
    by_cases same : other = id
    · subst same
      exact Or.inl ⟨rfl, Option.some.inj (present.symm.trans here)⟩
    · exact Or.inr (elsewhere other same ▸ present)
  have unknown {other : NodeId} {neighbour : Node} (present : view other = some neighbour) :
      id ∉ neighbour.children.ids ∧ id ∉ neighbour.parents.ids := by
    have closed := fun either => wired.closed other neighbour id present either
    rw [free] at closed
    exact ⟨fun child => absurd (closed (Or.inl child)) (by simp),
      fun parent => absurd (closed (Or.inr parent)) (by simp)⟩
  have empty (other : NodeId) : other ∉ node.children.ids ∧ other ∉ node.parents.ids := by
    rw [isolated.1, isolated.2]
    exact ⟨IdSet.not_mem_empty other, IdSet.not_mem_empty other⟩
  constructor
  case mirrored =>
    intro first second node neighbour firstFound secondFound
    rcases found firstFound with ⟨rfl, rfl⟩ | old
    · rcases found secondFound with ⟨rfl, rfl⟩ | otherOld
      · exact iff_of_false (empty _).1 (empty _).2
      · exact iff_of_false (empty _).1 (unknown otherOld).2
    · rcases found secondFound with ⟨rfl, rfl⟩ | otherOld
      · exact iff_of_false (unknown old).1 (empty _).2
      · exact wired.mirrored first second node neighbour old otherOld
  case no_loop =>
    intro other neighbour present
    rcases found present with ⟨rfl, rfl⟩ | old
    · exact empty _
    · exact wired.no_loop other neighbour old
  case closed =>
    intro first node second present neighbour
    rcases found present with ⟨rfl, rfl⟩ | old
    · exact absurd neighbour (not_or.2 (empty second))
    · have stored := wired.closed first node second old neighbour
      by_cases same : second = id
      · rw [same, here]
        rfl
      · rwa [elsewhere second same]

end NodeView

namespace Engine

/-- The tables of a store behind a run that generated some ids. -/
structure Consistent (generated : Nat) (store : MemoryStore) : Prop where
  lastId : store.lastId.toNat = generated
  bounded : ∀ id ∈ store.nodes, 0 < id.toNat ∧ id.toNat ≤ generated
  indexed : Indexed store
  named : ∀ (name : String) id, store.names[name]? = some id → ∃ node, store.nodes[id]? = some node ∧ node.name = name
  wired : NodeView.Wired (store.nodes[·]?)
  plain : ∀ (id : NodeId) node, store.nodes[id]? = some node → node.Plain

theorem consistent_empty : Consistent 0 ({} : MemoryStore) := by
  constructor
  case lastId => rfl
  case bounded => exact fun id stored => absurd stored Std.TreeMap.not_mem_emptyc
  case indexed => exact fun id node found => by simp at found
  case named => exact fun name id found => by simp at found
  case wired => constructor <;> simp
  case plain => exact fun id node found => by simp at found

structure Grounded (store : MemoryStore) : Prop where
  stored : ∀ (name : String) id, store.names[name]? = some id → id ∈ store.nodes
  indexed : Indexed store
  plain : ∀ (id : NodeId) node, store.nodes[id]? = some node → node.Plain

theorem Consistent.grounded {generated : Nat} {store : MemoryStore} (consistent : Consistent generated store) :
    Grounded store := by
  refine ⟨fun name id found => ?_, consistent.indexed, consistent.plain⟩
  obtain ⟨node, stored, -⟩ := consistent.named name id found
  exact mem_of_getElem? stored

theorem Grounded.congr {before after : MemoryStore} (grounded : Grounded before) (nodes : after.nodes = before.nodes)
    (names : after.names = before.names) : Grounded after := by
  constructor
  case stored => rw [names, nodes]; exact grounded.stored
  case indexed =>
    intro id node found
    rw [names]
    exact grounded.indexed id node (nodes ▸ found)
  case plain => exact nodes ▸ grounded.plain

theorem Consistent.congr {generated : Nat} {before after : MemoryStore} (consistent : Consistent generated before)
    (lastId : after.lastId = before.lastId) (nodes : after.nodes = before.nodes)
    (names : after.names = before.names) :
    Consistent generated after := by
  have grounded := consistent.grounded.congr nodes names
  constructor
  case lastId => exact lastId ▸ consistent.lastId
  case bounded => exact nodes ▸ consistent.bounded
  case indexed => exact grounded.indexed
  case named =>
    intro name id found
    rw [nodes]
    exact consistent.named name id (names ▸ found)
  case wired => exact nodes ▸ consistent.wired
  case plain => exact grounded.plain

theorem lookUp_eq (store : MemoryStore) (name : String) : lookUp store name = .ok store.names[name]? := by
  unfold lookUp
  cases found : store.names[name]? with
  | none =>
      have failed : GraphStore.idOfName store name = .error (.nameNotFound name) := by
        change store.idOfName name = _
        rw [MemoryStore.idOfName, found]
      rw [failed]
  | some id =>
      have known : GraphStore.idOfName store name = .ok id := MemoryStore.idOfName_eq_ok.2 found
      rw [known]

def madeNode (new : NewNode) (store : MemoryStore) : Node :=
  { id := store.lastId + 1, type := new.type, name := new.name, metadata := new.metadata }

def withNode (new : NewNode) (store : MemoryStore) : MemoryStore :=
  { store with
    lastId := store.lastId + 1
    nodes := store.nodes.insert (store.lastId + 1) (madeNode new store)
    names := store.names.insert new.name (store.lastId + 1)
    closures := store.closures.insert (store.lastId + 1) { id := store.lastId + 1 }
    worklist := store.worklist ++ [store.lastId + 1] }

theorem getElem?_nodes_withNode (new : NewNode) (store : MemoryStore) (id : NodeId) :
    (withNode new store).nodes[id]? = if store.lastId + 1 = id then some (madeNode new store) else store.nodes[id]? := by
  simp [withNode, Std.TreeMap.getElem?_insert]

theorem getElem?_names_withNode (new : NewNode) (store : MemoryStore) (name : String) :
    (withNode new store).names[name]? = if new.name = name then some (store.lastId + 1) else store.names[name]? := by
  simp [withNode, Std.TreeMap.getElem?_insert]

theorem getElem?_closures_withNode (new : NewNode) (store : MemoryStore) (id : NodeId) :
    (withNode new store).closures[id]? =
      if store.lastId + 1 = id then some { id := store.lastId + 1 } else store.closures[id]? := by
  simp [withNode, Std.TreeMap.getElem?_insert]

theorem insertNode_new {new : NewNode} {store : MemoryStore} (unknown : store.names[new.name]? = none) :
    insertNode new store = (.ok (madeNode new store, true), withNode new store) := by
  have found : lookUp store new.name = .ok none := unknown ▸ lookUp_eq store new.name
  exact Update.bind_read (lookUp · new.name) found

theorem insertNode_found {σ : Type} [GraphStore σ] {store : σ} {new : NewNode} {id : NodeId} {node : Node}
    (found : lookUp store new.name = .ok (some id)) (read : GraphStore.node store id = .ok node) :
    insertNode new store = (.ok (node, false), store) :=
  (Update.bind_read (lookUp · new.name) found).trans (Update.bind_read (GraphStore.node · id) read)

theorem insertNode_known {new : NewNode} {store : MemoryStore} {id : NodeId} {node : Node}
    (known : store.names[new.name]? = some id) (stored : store.nodes[id]? = some node) :
    insertNode new store = (.ok (node, false), store) := by
  have found : lookUp store new.name = .ok (some id) := known ▸ lookUp_eq store new.name
  exact insertNode_found found (MemoryStore.node_eq_ok.2 stored)

theorem Consistent.next {generated : Nat} {store : MemoryStore} (consistent : Consistent generated store)
    (few : generated + 1 < UInt32.size) :
    (store.lastId + 1).toNat = generated + 1 ∧ store.lastId + 1 ∉ store.nodes := by
  have nextId : (store.lastId + 1).toNat = generated + 1 := by
    rw [UInt32.toNat_add, consistent.lastId]
    exact Nat.mod_eq_of_lt few
  refine ⟨nextId, fun stored => ?_⟩
  have most := (consistent.bounded _ stored).2
  omega

theorem Grounded.withNode {store : MemoryStore} (grounded : Grounded store) {new : NewNode}
    (unknown : store.names[new.name]? = none) : Grounded (withNode new store) := by
  constructor
  case stored =>
    intro name id found
    rw [getElem?_names_withNode] at found
    refine Std.TreeMap.mem_insert.2 ?_
    split at found
    · obtain rfl := Option.some.inj found
      exact Or.inl Std.compare_self
    · exact Or.inr (grounded.stored name id found)
  case indexed =>
    intro id node found
    rw [getElem?_nodes_withNode] at found
    split at found
    · rename_i isNew
      obtain rfl := Option.some.inj found
      exact ⟨isNew, by simp [getElem?_names_withNode, madeNode, isNew]⟩
    · obtain ⟨own, named⟩ := grounded.indexed id node found
      refine ⟨own, ?_⟩
      rw [getElem?_names_withNode, if_neg, named]
      intro same
      rw [same, named] at unknown
      cases unknown
  case plain =>
    intro id node found
    rw [getElem?_nodes_withNode] at found
    split at found
    · obtain rfl := Option.some.inj found
      exact ⟨⟨rfl, rfl⟩, rfl, rfl⟩
    · exact grounded.plain id node found

theorem Consistent.withNode {generated : Nat} {store : MemoryStore} (consistent : Consistent generated store)
    (few : generated + 1 < UInt32.size) {new : NewNode} (unknown : store.names[new.name]? = none) :
    Consistent (generated + 1) (withNode new store) := by
  obtain ⟨nextId, isFree⟩ := consistent.next few
  have free : store.nodes[store.lastId + 1]? = none := Std.TreeMap.getElem?_eq_none isFree
  have grounded := consistent.grounded.withNode unknown
  constructor
  case lastId => exact nextId
  case bounded =>
    intro id stored
    rcases Std.TreeMap.mem_insert.1 stored with isNew | old
    · rw [Std.compare_eq_iff_eq] at isNew
      rw [← isNew, nextId]
      exact ⟨Nat.succ_pos _, Nat.le_refl _⟩
    · obtain ⟨positive, most⟩ := consistent.bounded id old
      exact ⟨positive, Nat.le_succ_of_le most⟩
  case indexed => exact grounded.indexed
  case named =>
    intro name id found
    rw [getElem?_names_withNode] at found
    split at found
    · rename_i isNew
      obtain rfl := Option.some.inj found
      exact ⟨madeNode new store, by simp [getElem?_nodes_withNode], isNew⟩
    · obtain ⟨node, stored, named⟩ := consistent.named name id found
      refine ⟨node, ?_, named⟩
      rw [getElem?_nodes_withNode, if_neg, stored]
      intro same
      rw [← same, free] at stored
      cases stored
  case wired =>
    have here := getElem?_nodes_withNode new store (store.lastId + 1)
    rw [if_pos rfl] at here
    refine consistent.wired.insert free ⟨rfl, rfl⟩ here fun other different => ?_
    rw [getElem?_nodes_withNode, if_neg (Ne.symm different)]
  case plain => exact grounded.plain

end Engine

end SupplyGraph
