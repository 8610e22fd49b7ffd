import SupplyGraph.Proofs.Engine.Consistency
import Mathlib.Order.Bounds.Defs

/-!
What a list of edges adds to a graph depends on which edges are listed, not on their order or on how often each is:
every end of a listed edge gets the other end, and every edge that was missing is counted once.
-/

namespace SupplyGraph

theorem IdSet.find?_eq_some {set : IdSet} {holds : NodeId → Bool} {least : NodeId} :
    set.toList.find? holds = some least ↔ IsLeast {id | id ∈ set ∧ holds id} least := by
  have leads (id : NodeId) (found : set.toList.find? holds = some id) : IsLeast {id | id ∈ set ∧ holds id} id := by
    obtain ⟨here, before, after, split, none_before⟩ := List.find?_eq_some_iff_append.1 found
    have ascending := set.ascending
    rw [split] at ascending
    refine ⟨⟨List.mem_of_find?_eq_some found, here⟩, fun other ⟨member, there⟩ => ?_⟩
    rw [IdSet.mem_def, split, List.mem_append, List.mem_cons] at member
    rcases member with earlier | rfl | later
    · exact absurd there (by simpa using none_before other earlier)
    · exact UInt32.le_refl _
    · exact UInt32.le_of_lt ((List.pairwise_cons.1 (List.pairwise_append.1 ascending).2.1).1 other later)
  refine ⟨leads least, fun isLeast => ?_⟩
  cases found : set.toList.find? holds with
  | none => exact absurd isLeast.1.2 (List.find?_eq_none.1 found least isLeast.1.1)
  | some id =>
      have other := leads id found
      exact congrArg some (UInt32.le_antisymm (other.2 isLeast.1) (isLeast.2 other.1))

namespace NodeView

structure WithEdges (edges : List (NodeId × NodeId)) (id : NodeId) (before after : Node) : Prop where
  kept : Kept before after
  children : ∀ other, other ∈ after.children.ids ↔ other ∈ before.children.ids ∨ id ≠ other ∧ (id, other) ∈ edges
  parents : ∀ other, other ∈ after.parents.ids ↔ other ∈ before.parents.ids ∨ id ≠ other ∧ (other, id) ∈ edges

theorem WithEdges.nil (id : NodeId) (node : Node) : WithEdges [] id node node where
  kept := .refl node
  children other := by simp
  parents other := by simp

theorem WithEdges.cons {edge : NodeId × NodeId} {edges : List (NodeId × NodeId)} {id : NodeId}
    {before between after : Node} (first : WithEdges [edge] id before between) (rest : WithEdges edges id between after) :
    WithEdges (edge :: edges) id before after where
  kept := first.kept.trans rest.kept
  children other := by
    rw [rest.children, first.children, List.mem_singleton, List.mem_cons, and_or_left, or_assoc]
  parents other := by
    rw [rest.parents, first.parents, List.mem_singleton, List.mem_cons, and_or_left, or_assoc]

theorem WithEdges.unique {edges others : List (NodeId × NodeId)} {id : NodeId} {before after other : Node}
    (first : WithEdges edges id before after) (second : WithEdges others id before other)
    (same : ∀ edge, edge ∈ edges ↔ edge ∈ others) (plain : after.Plain) (otherPlain : other.Plain) : after = other := by
  have children : after.children.ids = other.children.ids := by
    refine IdSet.ext fun neighbour => ?_
    rw [first.children, second.children, same]
  have parents : after.parents.ids = other.parents.ids := by
    refine IdSet.ext fun neighbour => ?_
    rw [first.parents, second.parents, same]
  have kept := first.kept
  have otherKept := second.kept
  cases after
  cases other
  simp only [Node.mk.injEq]
  exact ⟨kept.id.trans otherKept.id.symm, kept.type.trans otherKept.type.symm, kept.name.trans otherKept.name.symm,
    kept.metadata.trans otherKept.metadata.symm, plain.1.ext otherPlain.1 children, plain.2.ext otherPlain.2 parents⟩

theorem addEdge_withEdges (view : NodeView) (edge : NodeId × NodeId) {id : NodeId} {before : Node}
    (present : view id = some before) : ∃ after, view.addEdge edge id = some after ∧ WithEdges [edge] id before after := by
  by_cases loop : edge.1 = edge.2
  · refine ⟨before, by rw [addEdge, if_pos loop, present], .refl before, fun other => ?_, fun other => ?_⟩
    · refine (or_iff_left ?_).symm
      rintro ⟨different, listed⟩
      obtain rfl := List.mem_singleton.1 listed
      exact different loop
    · refine (or_iff_left ?_).symm
      rintro ⟨different, listed⟩
      obtain rfl := List.mem_singleton.1 listed
      exact different loop.symm
  · obtain ⟨after, found⟩ := Option.isSome_iff_exists.1 ((isSome_addEdge view edge id).trans
      (Option.isSome_iff_exists.2 ⟨before, present⟩))
    obtain ⟨old, oldPresent, kept⟩ := addEdge_kept found
    obtain rfl := Option.some.inj (present.symm.trans oldPresent)
    obtain ⟨old, oldPresent, children, parents⟩ := addEdge_edges loop found
    obtain rfl := Option.some.inj (present.symm.trans oldPresent)
    refine ⟨after, found, kept, fun other => ?_, fun other => ?_⟩
    · rw [children, List.mem_singleton, Prod.ext_iff]
      refine or_congr_right (iff_and_self.2 ?_)
      rintro ⟨rfl, rfl⟩
      exact loop
    · rw [parents, List.mem_singleton, Prod.ext_iff, and_comm (a := other = edge.1)]
      refine or_congr_right (iff_and_self.2 ?_)
      rintro ⟨rfl, rfl⟩
      exact Ne.symm loop

theorem addEdges_withEdges (view : NodeView) (edges : List (NodeId × NodeId)) {id : NodeId} {before : Node}
    (present : view id = some before) :
    ∃ after, view.addEdges edges id = some after ∧ WithEdges edges id before after := by
  induction edges generalizing view before with
  | nil => exact ⟨before, present, .nil id before⟩
  | cons edge edges ih =>
      obtain ⟨between, found, first⟩ := addEdge_withEdges view edge present
      obtain ⟨after, last, rest⟩ := ih (view.addEdge edge) found
      exact ⟨after, last, first.cons rest⟩

theorem addEdges_eq_none {view : NodeView} {edges : List (NodeId × NodeId)} {id : NodeId} :
    view.addEdges edges id = none ↔ view id = none := by
  rw [← Option.not_isSome_iff_eq_none, ← Option.not_isSome_iff_eq_none, isSome_addEdges]

theorem addEdges_congr {view : NodeView} (plain : ∀ id node, view id = some node → node.Plain)
    {edges others : List (NodeId × NodeId)} (same : ∀ edge, edge ∈ edges ↔ edge ∈ others) :
    view.addEdges edges = view.addEdges others := by
  funext id
  cases present : view id with
  | none =>
      rw [addEdges_eq_none.2 present, addEdges_eq_none.2 present]
  | some node =>
      obtain ⟨after, found, first⟩ := addEdges_withEdges view edges present
      obtain ⟨other, otherFound, second⟩ := addEdges_withEdges view others present
      rw [found, otherFound, first.unique second same (addEdges_plain plain id after found)
        (addEdges_plain plain id other otherFound)]

/-- The edge stands at both of its ends. -/
def HasEdge (view : NodeView) (edge : NodeId × NodeId) : Prop :=
  ∃ parent child, view edge.1 = some parent ∧ view edge.2 = some child ∧
    edge.2 ∈ parent.children.ids ∧ edge.1 ∈ child.parents.ids

theorem hasEdge_iff {view : NodeView} {edge : NodeId × NodeId} {parent child : Node}
    (parentFound : view edge.1 = some parent) (childFound : view edge.2 = some child) :
    view.HasEdge edge ↔ edge.2 ∈ parent.children.ids ∧ edge.1 ∈ child.parents.ids := by
  simp [HasEdge, parentFound, childFound]

theorem hasEdge_addEdges {view : NodeView} {edges : List (NodeId × NodeId)} {edge : NodeId × NodeId}
    (different : edge.1 ≠ edge.2) (parentPresent : (view edge.1).isSome) (childPresent : (view edge.2).isSome) :
    (view.addEdges edges).HasEdge edge ↔ view.HasEdge edge ∨ edge ∈ edges := by
  obtain ⟨parent, parentFound⟩ := Option.isSome_iff_exists.1 parentPresent
  obtain ⟨child, childFound⟩ := Option.isSome_iff_exists.1 childPresent
  obtain ⟨parentNow, parentFoundNow, atParent⟩ := addEdges_withEdges view edges parentFound
  obtain ⟨childNow, childFoundNow, atChild⟩ := addEdges_withEdges view edges childFound
  rw [hasEdge_iff parentFoundNow childFoundNow, hasEdge_iff parentFound childFound, atParent.children,
    atChild.parents, and_iff_right different, and_iff_right different.symm, and_or_right]

/-- The listed edges that are missing, each once. -/
structure Missing (view : NodeView) (edges missing : List (NodeId × NodeId)) : Prop where
  once : missing.Nodup
  mem : ∀ edge, edge ∈ missing ↔ edge ∈ edges ∧ edge.1 ≠ edge.2 ∧ ¬view.HasEdge edge

theorem Missing.length_eq {view : NodeView} {edges others missing more : List (NodeId × NodeId)}
    (first : view.Missing edges missing) (second : view.Missing others more)
    (same : ∀ edge, edge ∈ edges ↔ edge ∈ others) : missing.length = more.length := by
  refine ((List.perm_ext_iff_of_nodup first.once second.once).2 fun edge => ?_).length_eq
  rw [first.mem, second.mem, same]

end NodeView

namespace LinkChanges

open NodeView (Missing)

structure Counts (view : NodeView) (edges news : List (NodeId × NodeId)) (changes : LinkChanges) : Prop where
  missing : Missing view edges news
  added : changes.added = news.length
  changed : ∀ id, id ∈ changes.changed ↔ ∃ edge ∈ news, id = edge.1 ∨ id = edge.2

theorem add_loop {changes : LinkChanges} {edge : NodeId × NodeId} (loop : edge.1 = edge.2) :
    changes.add edge = changes := if_pos loop

theorem add_known {changes : LinkChanges} {edge : NodeId × NodeId}
    (known : NodeView.HasEdge (changes.nodes[·]?) edge) : changes.add edge = changes := by
  obtain ⟨parent, child, parentFound, childFound, both⟩ := known
  simp [add, parentFound, childFound, Bitmap.contains, IdSet.contains, both]

theorem add_new {changes : LinkChanges} {edge : NodeId × NodeId} (different : edge.1 ≠ edge.2) {parent child : Node}
    (parentFound : changes.nodes[edge.1]? = some parent) (childFound : changes.nodes[edge.2]? = some child)
    (new : ¬NodeView.HasEdge (changes.nodes[·]?) edge) :
    (changes.add edge).changed = (changes.changed.insert edge.1).insert edge.2 ∧
      (changes.add edge).added = changes.added + 1 := by
  rw [NodeView.hasEdge_iff parentFound childFound, not_and_or] at new
  have adds : ((changes.nodes[edge.1]?).any fun node => !node.children.contains edge.2) ||
      (changes.nodes[edge.2]?).any fun node => !node.parents.contains edge.1 := by
    simpa [parentFound, childFound, Bitmap.contains, IdSet.contains] using new
  simp only [add, if_neg different, if_pos adds]
  exact ⟨trivial, trivial⟩

theorem Counts.add {touched : IdSet} {view : NodeView} {edges news : List (NodeId × NodeId)} {changes : LinkChanges}
    (counts : Counts view edges news changes) (follows : Follows touched view edges changes)
    {edge : NodeId × NodeId} (ends : edge.1 ≠ edge.2 → edge.1 ∈ touched ∧ edge.2 ∈ touched)
    (present : ∀ id ∈ touched, (view id).isSome) : ∃ more, Counts view (edges ++ [edge]) more (changes.add edge) := by
  have unchanged (known : edge.1 ≠ edge.2 → view.HasEdge edge ∨ edge ∈ edges) (same : changes.add edge = changes) :
      Counts view (edges ++ [edge]) news (changes.add edge) := by
    rw [same]
    refine ⟨⟨counts.missing.once, fun other => ?_⟩, counts.added, counts.changed⟩
    rw [counts.missing.mem, List.mem_append, List.mem_singleton]
    refine and_congr_left fun ⟨different, absent⟩ => (or_iff_left_of_imp ?_).symm
    rintro rfl
    exact (known different).resolve_left absent
  by_cases loop : edge.1 = edge.2
  · exact ⟨news, unchanged (absurd loop) (add_loop loop)⟩
  obtain ⟨parentTouched, childTouched⟩ := ends loop
  have stands : (view.addEdges edges).HasEdge edge ↔ view.HasEdge edge ∨ edge ∈ edges :=
    NodeView.hasEdge_addEdges loop (present _ parentTouched) (present _ childTouched)
  have shown (id : NodeId) (member : id ∈ touched) : ∃ node, changes.nodes[id]? = some node ∧
      view.addEdges edges id = some node := by
    obtain ⟨node, found⟩ := Option.isSome_iff_exists.1
      ((NodeView.isSome_addEdges view edges id).trans (present id member))
    exact ⟨node, (follows.nodes id member).trans found, found⟩
  obtain ⟨parent, parentFound, parentShown⟩ := shown _ parentTouched
  obtain ⟨child, childFound, childShown⟩ := shown _ childTouched
  have same : NodeView.HasEdge (changes.nodes[·]?) edge ↔ (view.addEdges edges).HasEdge edge :=
    (NodeView.hasEdge_iff parentFound childFound).trans (NodeView.hasEdge_iff parentShown childShown).symm
  rw [← same] at stands
  by_cases known : view.HasEdge edge ∨ edge ∈ edges
  · exact ⟨news, unchanged (fun _ => known) (add_known (stands.2 known))⟩
  · obtain ⟨changed, count⟩ := add_new loop parentFound childFound (mt stands.1 known)
    obtain ⟨absent, unlisted⟩ := not_or.1 known
    have fresh : edge ∉ news := fun listed => unlisted ((counts.missing.mem edge).1 listed).1
    refine ⟨edge :: news, ⟨List.nodup_cons.2 ⟨fresh, counts.missing.once⟩, fun other => ?_⟩, ?_, fun id => ?_⟩
    · rw [List.mem_cons, counts.missing.mem, List.mem_append, List.mem_singleton]
      constructor
      · rintro (rfl | ⟨listed, missing⟩)
        · exact ⟨.inr rfl, loop, absent⟩
        · exact ⟨.inl listed, missing⟩
      · rintro ⟨listed | rfl, missing⟩
        · exact .inr ⟨listed, missing⟩
        · exact .inl rfl
    · rw [count, counts.added, List.length_cons]
    · rw [changed, IdSet.mem_insert, IdSet.mem_insert, counts.changed, List.exists_mem_cons_iff, or_left_comm, or_assoc]

theorem Counts.addAll {touched : IdSet} {view : NodeView} {earlier news edges : List (NodeId × NodeId)}
    {changes : LinkChanges} (counts : Counts view earlier news changes) (follows : Follows touched view earlier changes)
    (ends : ∀ edge ∈ edges, edge.1 ≠ edge.2 → edge.1 ∈ touched ∧ edge.2 ∈ touched)
    (present : ∀ id ∈ touched, (view id).isSome) :
    ∃ more, Counts view (earlier ++ edges) more (edges.foldl LinkChanges.add changes) := by
  induction edges generalizing earlier news changes with
  | nil => exact ⟨news, by simpa using counts⟩
  | cons edge edges ih =>
      obtain ⟨more, next⟩ := counts.add follows (ends edge List.mem_cons_self) present
      have followed := follows.add (ends edge List.mem_cons_self)
      have rest := ih next followed fun other listed => ends other (List.mem_cons_of_mem edge listed)
      simpa using rest

end LinkChanges

namespace Engine

open LinkChanges (Follows Counts)

variable {σ : Type} [GraphStore σ] {store : σ} {edges : List (NodeId × NodeId)} {nodes : NodeTable} {view : NodeView}

section

variable (read : GraphStore.nodes store (touchedIds edges).toList = .ok nodes)
  (shows : ∀ id ∈ touchedIds edges, nodes[id]? = view id)
include read shows

theorem planLinks_counted (present : ∀ id ∈ touchedIds edges, (view id).isSome) :
    ∃ changes news, Follows (touchedIds edges) view edges changes ∧ Counts view edges news changes ∧
      planLinks edges store = .ok (changes.changed.toList.filterMap (changes.nodes[·]?), news.length) := by
  have none_yet : Counts view [] [] { nodes } := ⟨⟨.nil, by simp⟩, rfl, by simp⟩
  obtain ⟨news, counts⟩ := none_yet.addAll (.start shows) ends_touched present
  obtain ⟨follows, planned⟩ := planLinks_follows read shows present
  exact ⟨_, news, follows, counts, counts.added ▸ planned⟩

theorem planLinks_missing {missing : NodeId} :
    planLinks edges store = .error (.nodeNotFound missing) ↔
      IsLeast {id | id ∈ touchedIds edges ∧ view id = none} missing := by
  have first := @IdSet.find?_eq_some (touchedIds edges) (fun id => (view id).isNone) missing
  simp only [Option.isNone_iff_eq_none] at first
  rw [planLinks_eq read shows, ← first]
  cases (touchedIds edges).toList.find? fun id => (view id).isNone <;> simp

end

theorem planLinks_stored {store : MemoryStore} (present : ∀ id ∈ touchedIds edges, id ∈ store.nodes) :
    ∃ changes news, Counts (store.nodes[·]?) edges news changes ∧
      planLinks edges store = .ok (changes.changed.toList.filterMap (changes.nodes[·]?), news.length) := by
  have read : GraphStore.nodes store (touchedIds edges).toList = .ok (store.nodeTable (touchedIds edges).toList) := rfl
  have stored : ∀ id ∈ touchedIds edges, (store.nodes[id]?).isSome := fun id touched =>
    Std.TreeMap.mem_iff_isSome_getElem?.1 (present id touched)
  obtain ⟨changes, news, -, counts, planned⟩ := planLinks_counted read (fun id => contains_touched) stored
  exact ⟨changes, news, counts, planned⟩

end Engine

end SupplyGraph
