import SupplyGraph.Engine
import SupplyGraph.Proofs.Store.Memory
import SupplyGraph.Proofs.Update
import Mathlib.Data.List.Find

/-!
Adding edges. A table of nodes is seen as the function that looks its nodes up; adding an edge changes this function
at the two ends of the edge. Adding many edges to the nodes that they touch, and writing back only the nodes that
have changed, is adding one edge after the other.
-/

namespace SupplyGraph

abbrev NodeView := NodeId → Option Node

namespace NodeView

def addEdge (view : NodeView) (edge : NodeId × NodeId) : NodeView :=
  if edge.1 = edge.2 then view
  else fun id =>
    if id = edge.1 then (view id).map fun node => { node with children := node.children.insert edge.2 }
    else if id = edge.2 then (view id).map fun node => { node with parents := node.parents.insert edge.1 }
    else view id

def addEdges (view : NodeView) (edges : List (NodeId × NodeId)) : NodeView := edges.foldl addEdge view

theorem addEdges_append (view : NodeView) (edges : List (NodeId × NodeId)) (edge : NodeId × NodeId) :
    view.addEdges (edges ++ [edge]) = (view.addEdges edges).addEdge edge := by
  rw [addEdges, List.foldl_append]
  rfl

structure Kept (before after : Node) : Prop where
  id : after.id = before.id
  type : after.type = before.type
  name : after.name = before.name
  metadata : after.metadata = before.metadata

theorem Kept.refl (node : Node) : Kept node node := ⟨rfl, rfl, rfl, rfl⟩

theorem Kept.trans {before between after : Node} (first : Kept before between) (second : Kept between after) :
    Kept before after :=
  ⟨second.id.trans first.id, second.type.trans first.type, second.name.trans first.name,
    second.metadata.trans first.metadata⟩

theorem addEdge_kept {view : NodeView} {edge : NodeId × NodeId} {id : NodeId} {after : Node}
    (found : view.addEdge edge id = some after) : ∃ before, view id = some before ∧ Kept before after := by
  unfold addEdge at found
  split at found
  · exact ⟨after, found, .refl after⟩
  · dsimp only at found
    split at found
    · obtain ⟨before, present, rfl⟩ := Option.map_eq_some_iff.1 found
      exact ⟨before, present, rfl, rfl, rfl, rfl⟩
    · split at found
      · obtain ⟨before, present, rfl⟩ := Option.map_eq_some_iff.1 found
        exact ⟨before, present, rfl, rfl, rfl, rfl⟩
      · exact ⟨after, found, .refl after⟩

theorem addEdges_kept {view : NodeView} {edges : List (NodeId × NodeId)} {id : NodeId} {after : Node}
    (found : view.addEdges edges id = some after) : ∃ before, view id = some before ∧ Kept before after := by
  induction edges generalizing view with
  | nil => exact ⟨after, found, .refl after⟩
  | cons edge edges ih =>
      obtain ⟨between, present, kept⟩ := ih found
      obtain ⟨before, first, earlier⟩ := addEdge_kept present
      exact ⟨before, first, earlier.trans kept⟩

theorem isSome_addEdge (view : NodeView) (edge : NodeId × NodeId) (id : NodeId) :
    (view.addEdge edge id).isSome = (view id).isSome := by
  unfold addEdge
  split
  · rfl
  · dsimp only
    split
    · simp
    · split <;> simp

theorem isSome_addEdges (view : NodeView) (edges : List (NodeId × NodeId)) (id : NodeId) :
    (view.addEdges edges id).isSome = (view id).isSome := by
  induction edges generalizing view with
  | nil => rfl
  | cons edge edges ih => exact (ih _).trans (isSome_addEdge view edge id)

end NodeView

namespace LinkChanges

theorem insert_of_contains {bitmap : Bitmap} {id : NodeId} (present : bitmap.contains id) :
    bitmap.insert id = bitmap := by
  rw [Bitmap.insert, if_pos (of_decide_eq_true present)]

theorem addEdge_eq_self {view : NodeView} {parent child : NodeId}
    (knownChild : ∀ node, view parent = some node → node.children.contains child)
    (knownParent : ∀ node, view child = some node → node.parents.contains parent) :
    view.addEdge (parent, child) = view := by
  unfold NodeView.addEdge
  split
  · rfl
  · funext id
    dsimp only
    split
    · rename_i isParent
      subst isParent
      cases found : view id with
      | none => rfl
      | some node => rw [Option.map_some, insert_of_contains (knownChild node found)]
    · split
      · rename_i isChild
        subst isChild
        cases found : view id with
        | none => rfl
        | some node => rw [Option.map_some, insert_of_contains (knownParent node found)]
      · rfl

theorem add_cases (changes : LinkChanges) (edge : NodeId × NodeId) :
    (∀ id, (changes.add edge).nodes[id]? = NodeView.addEdge (changes.nodes[·]?) edge id) ∧
      ((changes.add edge = changes) ∨
        (edge.1 ≠ edge.2 ∧ (∀ id, id ∈ (changes.add edge).changed ↔ id = edge.1 ∨ id = edge.2 ∨ id ∈ changes.changed) ∧
          (changes.add edge).added = changes.added + 1)) := by
  obtain ⟨parent, child⟩ := edge
  by_cases loop : parent = child
  · have same : changes.add (parent, child) = changes := if_pos loop
    exact ⟨fun id => by rw [same, NodeView.addEdge, if_pos loop], Or.inl same⟩
  by_cases new : ((changes.nodes[parent]?).any fun node => !node.children.contains child) ||
      (changes.nodes[child]?).any fun node => !node.parents.contains parent
  · have added : changes.add (parent, child) = { changes with
        nodes := (changes.nodes.modify parent fun node => { node with children := node.children.insert child }).modify
          child fun node => { node with parents := node.parents.insert parent }
        changed := (changes.changed.insert parent).insert child
        added := changes.added + 1 } := by
      simp only [add, if_neg loop, if_pos new]
    refine ⟨fun id => ?_, Or.inr ⟨loop, fun id => ?_, ?_⟩⟩
    · rw [added, NodeView.addEdge, if_neg loop]
      simp only [Std.TreeMap.getElem?_modify, Std.compare_eq_iff_eq]
      by_cases isParent : id = parent
      · subst isParent
        simp [Ne.symm loop]
      · by_cases isChild : id = child
        · subst isChild
          simp [loop, isParent]
        · simp [isParent, isChild, Ne.symm isParent, Ne.symm isChild]
    · rw [added]
      simp only [IdSet.mem_insert]
      exact or_left_comm
    · rw [added]
  · have same : changes.add (parent, child) = changes := by
      simp only [add, if_neg loop, if_neg new]
    refine ⟨fun id => ?_, Or.inl same⟩
    rw [Bool.or_eq_true, not_or] at new
    rw [same, addEdge_eq_self]
    · intro node found
      simpa [found] using new.1
    · intro node found
      simpa [found] using new.2

structure Follows (touched : IdSet) (view : NodeView) (edges : List (NodeId × NodeId))
    (changes : LinkChanges) : Prop where
  nodes : ∀ id ∈ touched, changes.nodes[id]? = view.addEdges edges id
  changed : ∀ id ∈ changes.changed, id ∈ touched
  unchanged : ∀ id, id ∉ changes.changed → view.addEdges edges id = view id

theorem Follows.start {touched : IdSet} {view : NodeView} {nodes : NodeTable}
    (shows : ∀ id ∈ touched, nodes[id]? = view id) : Follows touched view [] { nodes } :=
  ⟨shows, fun id member => absurd member (IdSet.not_mem_empty id), fun _ _ => rfl⟩

theorem addEdge_congr {view other : NodeView} {edge : NodeId × NodeId} {id : NodeId} (same : view id = other id) :
    view.addEdge edge id = other.addEdge edge id := by
  unfold NodeView.addEdge
  split
  · exact same
  · simp only [same]

theorem addEdge_of_ne (view : NodeView) {edge : NodeId × NodeId} {id : NodeId}
    (apart : edge.1 ≠ edge.2 → id ≠ edge.1 ∧ id ≠ edge.2) : view.addEdge edge id = view id := by
  unfold NodeView.addEdge
  split
  · rfl
  · rename_i different
    simp only [if_neg (apart different).1, if_neg (apart different).2]

theorem Follows.add {touched : IdSet} {view : NodeView} {edges : List (NodeId × NodeId)} {changes : LinkChanges}
    (follows : Follows touched view edges changes) {edge : NodeId × NodeId}
    (ends : edge.1 ≠ edge.2 → edge.1 ∈ touched ∧ edge.2 ∈ touched) :
    Follows touched view (edges ++ [edge]) (changes.add edge) := by
  obtain ⟨nodes, cases⟩ := changes.add_cases edge
  have nodes_eq : ∀ id ∈ touched, (changes.add edge).nodes[id]? = view.addEdges (edges ++ [edge]) id := by
    intro id member
    rw [nodes, NodeView.addEdges_append]
    exact addEdge_congr (follows.nodes id member)
  rcases cases with same | ⟨different, changed, -⟩
  · rw [same] at nodes_eq ⊢
    refine ⟨nodes_eq, follows.changed, fun id outside => ?_⟩
    by_cases inside : id ∈ touched
    · rw [← nodes_eq id inside, follows.nodes id inside]
      exact follows.unchanged id outside
    · rw [NodeView.addEdges_append, addEdge_of_ne]
      · exact follows.unchanged id outside
      · intro different
        exact ⟨fun equal => inside (equal ▸ (ends different).1), fun equal => inside (equal ▸ (ends different).2)⟩
  · refine ⟨nodes_eq, fun id member => ?_, fun id outside => ?_⟩
    · rcases (changed id).1 member with rfl | rfl | before
      · exact (ends different).1
      · exact (ends different).2
      · exact follows.changed id before
    · rw [changed, not_or, not_or] at outside
      rw [NodeView.addEdges_append, addEdge_of_ne _ fun _ => ⟨outside.1, outside.2.1⟩]
      exact follows.unchanged id outside.2.2

theorem Follows.addAll {touched : IdSet} {view : NodeView} {earlier edges : List (NodeId × NodeId)}
    {changes : LinkChanges} (follows : Follows touched view earlier changes)
    (ends : ∀ edge ∈ edges, edge.1 ≠ edge.2 → edge.1 ∈ touched ∧ edge.2 ∈ touched) :
    Follows touched view (earlier ++ edges) (edges.foldl LinkChanges.add changes) := by
  induction edges generalizing earlier changes with
  | nil => simpa using follows
  | cons edge edges ih =>
      have one := follows.add (ends edge (List.mem_cons_self ..))
      have rest := ih one fun other member => ends other (List.mem_cons_of_mem _ member)
      simpa using rest

end LinkChanges

namespace Engine

theorem mem_touchedIds {edges : List (NodeId × NodeId)} {id : NodeId} :
    id ∈ touchedIds edges ↔ ∃ edge ∈ edges, edge.1 ≠ edge.2 ∧ (id = edge.1 ∨ id = edge.2) := by
  simp only [touchedIds, IdSet.mem_ofList, List.mem_flatMap, List.mem_filter, bne_iff_ne, List.mem_cons,
    List.not_mem_nil, or_false, and_assoc]

theorem ends_touched {edges : List (NodeId × NodeId)} : ∀ edge ∈ edges, edge.1 ≠ edge.2 →
    edge.1 ∈ touchedIds edges ∧ edge.2 ∈ touchedIds edges := fun edge listed different =>
  ⟨mem_touchedIds.2 ⟨edge, listed, different, .inl rfl⟩, mem_touchedIds.2 ⟨edge, listed, different, .inr rfl⟩⟩

structure Linked (edges : List (NodeId × NodeId)) (before after : MemoryStore) : Prop where
  nodes : ∀ id, after.nodes[id]? = NodeView.addEdges (before.nodes[·]?) edges id
  names : ∀ name : String, after.names[name]? = before.names[name]?
  lastId : after.lastId = before.lastId
  closures : after.closures = before.closures
  custom : after.custom = before.custom
  pending : after.worklist = [] → after = before

theorem Linked.mem_nodes {edges : List (NodeId × NodeId)} {before after : MemoryStore}
    (linked : Linked edges before after) (id : NodeId) : id ∈ after.nodes ↔ id ∈ before.nodes := by
  rw [Std.TreeMap.mem_iff_isSome_getElem?, Std.TreeMap.mem_iff_isSome_getElem?, linked.nodes, NodeView.isSome_addEdges]

theorem contains_touched {store : MemoryStore} {edges : List (NodeId × NodeId)} {id : NodeId}
    (member : id ∈ touchedIds edges) :
    (store.nodeTable (touchedIds edges).toList)[id]? = store.nodes[id]? := by
  rw [MemoryStore.getElem?_nodeTable, if_pos (IdSet.mem_def.1 member)]

section

variable {σ : Type} [GraphStore σ] {store : σ} {edges : List (NodeId × NodeId)} {nodes : NodeTable} {view : NodeView}
  (read : GraphStore.nodes store (touchedIds edges).toList = .ok nodes)
  (shows : ∀ id ∈ touchedIds edges, nodes[id]? = view id)
include read shows

theorem planLinks_eq :
    planLinks edges store = match (touchedIds edges).toList.find? fun id => (view id).isNone with
      | some missing => .error (.nodeNotFound missing)
      | none =>
        let changes := edges.foldl LinkChanges.add { nodes }
        .ok (changes.changed.toList.filterMap (changes.nodes[·]?), changes.added) := by
  have same (id : NodeId) (touched : id ∈ touchedIds edges) : (!nodes.contains id) = (view id).isNone := by
    rw [Std.TreeMap.contains_eq_isSome_getElem?, shows id touched, Option.not_isSome]
  rw [← List.find?_congr same]
  unfold planLinks
  dsimp only
  rw [read]
  rfl

theorem planLinks_follows (present : ∀ id ∈ touchedIds edges, (view id).isSome) :
    let changes := edges.foldl LinkChanges.add { nodes }
    LinkChanges.Follows (touchedIds edges) view edges changes ∧
      planLinks edges store = .ok (changes.changed.toList.filterMap (changes.nodes[·]?), changes.added) := by
  have none_missing : (touchedIds edges).toList.find? (fun id => (view id).isNone) = none := by
    rw [List.find?_eq_none]
    intro id member
    simpa using Option.isSome_iff_ne_none.1 (present id member)
  exact ⟨(LinkChanges.Follows.start shows).addAll ends_touched, by rw [planLinks_eq read shows, none_missing]⟩

end

theorem planLinks_ok {store : MemoryStore} {edges : List (NodeId × NodeId)}
    (present : ∀ id ∈ touchedIds edges, id ∈ store.nodes) :
    ∃ changes, LinkChanges.Follows (touchedIds edges) (store.nodes[·]?) edges changes ∧
      planLinks edges store = .ok (changes.changed.toList.filterMap (changes.nodes[·]?), changes.added) := by
  have read : GraphStore.nodes store (touchedIds edges).toList = .ok (store.nodeTable (touchedIds edges).toList) := rfl
  exact ⟨_, planLinks_follows read (fun id => contains_touched) fun id member =>
    Std.TreeMap.mem_iff_isSome_getElem?.1 (present id member)⟩

theorem planLinks_error {store : MemoryStore} {edges : List (NodeId × NodeId)}
    (absent : ∃ id ∈ touchedIds edges, id ∉ store.nodes) : ∃ failure, planLinks edges store = .error failure := by
  have read : GraphStore.nodes store (touchedIds edges).toList = .ok (store.nodeTable (touchedIds edges).toList) := rfl
  rw [planLinks_eq read fun id => contains_touched]
  split
  next => exact ⟨_, rfl⟩
  next found =>
    obtain ⟨id, member, missing⟩ := absent
    exact absurd (List.find?_eq_none.1 found id member) (by simpa using missing)

theorem link_eq (store : MemoryStore) (edges : List (NodeId × NodeId)) :
    link edges store = match planLinks edges store with
      | .ok (changed, added) => (.ok added, changed.foldl MemoryStore.saveNode store)
      | .error failure => (.error failure, store) := by
  cases planned : planLinks edges store with
  | error failure => exact Update.bind_read_error (planLinks edges) planned
  | ok result => exact Update.bind_read (planLinks edges) planned

def Indexed (store : MemoryStore) : Prop :=
  ∀ (id : NodeId) (node : Node), store.nodes[id]? = some node → node.id = id ∧ store.names[node.name]? = some id

theorem link_ok {store : MemoryStore} {edges : List (NodeId × NodeId)} (indexed : Indexed store)
    (present : ∀ id ∈ touchedIds edges, id ∈ store.nodes) :
    ∃ added after, link edges store = (.ok added, after) ∧ Linked edges store after := by
  obtain ⟨changes, follows, planned⟩ := planLinks_ok present
  have linked {id : NodeId} {node : Node} (found : NodeView.addEdges (store.nodes[·]?) edges id = some node) :
      node.id = id ∧ store.names[node.name]? = some node.id := by
    obtain ⟨before, present, kept⟩ := NodeView.addEdges_kept found
    obtain ⟨own, named⟩ := indexed id before present
    exact ⟨kept.id.trans own, by rw [kept.name, named, kept.id, own]⟩
  have saved : ∀ node ∈ changes.changed.toList.filterMap (changes.nodes[·]?), ∃ id ∈ changes.changed,
      NodeView.addEdges (store.nodes[·]?) edges id = some node := by
    intro node member
    obtain ⟨id, inside, found⟩ := List.mem_filterMap.1 member
    exact ⟨id, inside, (follows.nodes id (follows.changed id inside)).symm.trans found⟩
  have agree : ∀ node ∈ changes.changed.toList.filterMap (changes.nodes[·]?),
      NodeView.addEdges (store.nodes[·]?) edges node.id = some node := by
    intro node member
    obtain ⟨id, -, found⟩ := saved node member
    exact (linked found).1 ▸ found
  refine ⟨changes.added, _, by rw [link_eq, planned], ?_⟩
  constructor
  case lastId => rw [MemoryStore.foldl_saveNode]
  case closures => rw [MemoryStore.foldl_saveNode]
  case custom => rw [MemoryStore.foldl_saveNode]
  case names =>
    refine MemoryStore.getElem?_names_saveNodes fun node member => ?_
    exact (linked (agree node member)).2
  case nodes =>
    intro id
    rw [MemoryStore.getElem?_nodes_saveNodes agree]
    split
    · rfl
    · rename_i unsaved
      by_cases inside : id ∈ changes.changed
      · cases found : NodeView.addEdges (store.nodes[·]?) edges id with
        | none =>
            have gone := NodeView.isSome_addEdges (store.nodes[·]?) edges id
            rw [found] at gone
            exact Option.isSome_eq_false_iff.1 gone.symm |> Option.isNone_iff_eq_none.1
        | some node =>
            refine absurd (List.mem_map.2 ⟨node, List.mem_filterMap.2 ⟨id, inside, ?_⟩, (linked found).1⟩) unsaved
            rw [follows.nodes id (follows.changed id inside), found]
      · exact (follows.unchanged id inside).symm
  case pending =>
    intro done
    rw [MemoryStore.foldl_saveNode] at done
    have nothing := List.map_eq_nil_iff.1 (List.append_eq_nil_iff.1 done).2
    rw [nothing]
    rfl

theorem link_error {store : MemoryStore} {edges : List (NodeId × NodeId)}
    (absent : ∃ id ∈ touchedIds edges, id ∉ store.nodes) :
    ∃ failure, link edges store = (.error failure, store) := by
  obtain ⟨failure, planned⟩ := planLinks_error absent
  exact ⟨failure, by rw [link_eq, planned]⟩

end Engine

end SupplyGraph
