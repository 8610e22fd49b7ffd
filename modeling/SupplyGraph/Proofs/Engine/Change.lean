import SupplyGraph.Proofs.Engine.Consistency
import SupplyGraph.Proofs.Graph.Closures

/-!
Every call of the engine that adds to a memory store is a sequence of elementary changes: a node with a new name is
added, edges are added between stored nodes, or custom data is written. A call that fails has made none of them, or
only complete ones. The other calls leave the graph as it is: a rebuild replaces all closures by exact ones or does
nothing, and the closures can be dropped.
-/

namespace SupplyGraph.Engine

inductive Change (before : MemoryStore) : Nat → MemoryStore → Prop
  | insert (new : NewNode) (unknown : before.names[new.name]? = none) : Change before 1 (withNode new before)
  | link (edges : List (NodeId × NodeId)) (after : MemoryStore) (present : ∀ id ∈ touchedIds edges, id ∈ before.nodes)
      (linked : Linked edges before after) : Change before 0 after
  | custom (tag key field : String) (data : Bytes) : Change before 0 (before.putField tag key field data)

inductive Changes (start : MemoryStore) : Nat → MemoryStore → Prop
  | none : Changes start 0 start
  | more (generated : Nat) (between : MemoryStore) (ids : Nat) (after : MemoryStore)
      (changes : Changes start generated between) (change : Change between ids after) :
      Changes start (generated + ids) after

theorem Changes.one {before after : MemoryStore} {ids : Nat} (change : Change before ids after) :
    Changes before ids after := by
  have both := Changes.more 0 before ids after .none change
  rwa [Nat.zero_add] at both

theorem Changes.trans {start between after : MemoryStore} {earlier later : Nat}
    (first : Changes start earlier between)
    (second : Changes between later after) : Changes start (earlier + later) after := by
  induction second with
  | none => exact first
  | more generated middle ids after _ change ih =>
      rw [← Nat.add_assoc]
      exact .more _ middle ids after ih change

def Refreshed (before after : MemoryStore) : Prop :=
  ∃ records, Closures.Complete before.nodes records ∧
    after = { records.foldl MemoryStore.saveClosures before with worklist := [] }

theorem Refreshed.graph {before after : MemoryStore} (refreshed : Refreshed before after) :
    after.lastId = before.lastId ∧ after.nodes = before.nodes ∧ after.names = before.names := by
  obtain ⟨records, -, rfl⟩ := refreshed
  rw [MemoryStore.foldl_saveClosures]
  exact ⟨rfl, rfl, rfl⟩

/-- What a call leaves behind, whatever it gives. -/
inductive Effect (operation : Operation) (before : MemoryStore) : MemoryStore → Prop
  | changed (after : MemoryStore) (changes : Changes before (operation.ids before) after) : Effect operation before after
  | refreshed (after : MemoryStore) (noIds : operation.ids before = 0) (refreshed : Refreshed before after) :
      Effect operation before after
  | dropped (drops : operation = .clear) : Effect operation before before.dropClosures

theorem Grounded.link {before after : MemoryStore} {edges : List (NodeId × NodeId)} (grounded : Grounded before)
    (linked : Linked edges before after) : Grounded after := by
  constructor
  case stored =>
    intro name id found
    exact (linked.mem_nodes id).2 (grounded.stored name id ((linked.names name).symm.trans found))
  case indexed =>
    intro id node found
    rw [linked.nodes] at found
    obtain ⟨old, present, kept⟩ := NodeView.addEdges_kept found
    rw [linked.names, kept.id, kept.name]
    exact grounded.indexed id old present
  case plain => exact fun id node found => NodeView.addEdges_plain grounded.plain id node (linked.nodes id ▸ found)

theorem Grounded.change {ids : Nat} {before after : MemoryStore} (grounded : Grounded before)
    (change : Change before ids after) : Grounded after := by
  cases change with
  | insert new unknown => exact grounded.withNode unknown
  | link edges after present linked => exact grounded.link linked
  | custom tag key field data => exact ⟨grounded.stored, grounded.indexed, grounded.plain⟩

theorem Grounded.changes {ids : Nat} {before after : MemoryStore} (grounded : Grounded before)
    (changes : Changes before ids after) : Grounded after := by
  induction changes with
  | none => exact grounded
  | more earlier between ids after _ change ih => exact ih.change change

theorem Consistent.link {generated : Nat} {before after : MemoryStore} {edges : List (NodeId × NodeId)}
    (consistent : Consistent generated before) (present : ∀ id ∈ touchedIds edges, id ∈ before.nodes)
    (linked : Linked edges before after) : Consistent generated after := by
  have grounded := consistent.grounded.link linked
  constructor
  case lastId => exact linked.lastId ▸ consistent.lastId
  case bounded => exact fun id member => consistent.bounded id ((linked.mem_nodes id).1 member)
  case indexed => exact grounded.indexed
  case named =>
    intro name id found
    rw [linked.names] at found
    obtain ⟨old, present, named⟩ := consistent.named name id found
    have isStored := (linked.mem_nodes id).2 (mem_of_getElem? present)
    obtain ⟨node, now⟩ := getElem?_of_mem isStored
    obtain ⟨same, samePresent, kept⟩ := NodeView.addEdges_kept ((linked.nodes id).symm.trans now)
    obtain rfl := Option.some.inj (present.symm.trans samePresent)
    exact ⟨node, now, kept.name.trans named⟩
  case wired =>
    have view : (fun id : NodeId => after.nodes[id]?) = NodeView.addEdges (before.nodes[·]?) edges :=
      funext linked.nodes
    rw [view]
    refine consistent.wired.addEdges fun edge member different => ?_
    have start := present edge.1 (mem_touchedIds.2 ⟨edge, member, different, Or.inl rfl⟩)
    have finish := present edge.2 (mem_touchedIds.2 ⟨edge, member, different, Or.inr rfl⟩)
    exact ⟨Std.TreeMap.mem_iff_isSome_getElem?.1 start, Std.TreeMap.mem_iff_isSome_getElem?.1 finish⟩
  case plain => exact grounded.plain

theorem Consistent.change {generated ids : Nat} {before after : MemoryStore}
    (consistent : Consistent generated before)
    (change : Change before ids after) (few : generated + ids < UInt32.size) :
    Consistent (generated + ids) after := by
  cases change with
  | insert new unknown => exact consistent.withNode few unknown
  | link edges after present linked => exact consistent.link present linked
  | custom tag key field data => exact consistent.congr rfl rfl rfl

theorem Consistent.changes {generated ids : Nat} {before after : MemoryStore}
    (consistent : Consistent generated before)
    (changes : Changes before ids after) (few : generated + ids < UInt32.size) :
    Consistent (generated + ids) after := by
  induction changes with
  | none => exact consistent
  | more earlier between ids after _ change ih =>
      rw [← Nat.add_assoc] at few ⊢
      exact (ih (by omega)).change change few

theorem Consistent.effect {generated : Nat} {operation : Operation} {before after : MemoryStore}
    (consistent : Consistent generated before) (effect : Effect operation before after)
    (few : generated + operation.ids before < UInt32.size) : Consistent (generated + operation.ids before) after := by
  cases effect with
  | changed after changes => exact consistent.changes changes few
  | refreshed after noIds refreshed =>
      obtain ⟨lastId, nodes, names⟩ := refreshed.graph
      rw [noIds]
      exact consistent.congr lastId nodes names
  | dropped drops =>
      subst drops
      exact consistent.congr rfl rfl rfl

variable {generated : Nat} {store : MemoryStore}

theorem Consistent.mirrored (consistent : Consistent generated store) : store.nodes.Mirrored :=
  fun id other node neighbour found otherFound => consistent.wired.mirrored id other node neighbour found otherFound

theorem idsOfNode_eq (new : NewNode) (store : MemoryStore) :
    idsOfNode new store = if (store.names[new.name]?).isNone then 1 else 0 := by
  rw [idsOfNode, lookUp_eq]
  cases store.names[new.name]? <;> rfl

theorem Grounded.insertNode (grounded : Grounded store) (new : NewNode) :
    ∃ result after, insertNode new store = (.ok result, after) ∧ Changes store (idsOfNode new store) after := by
  rw [idsOfNode_eq]
  cases known : store.names[new.name]? with
  | none => exact ⟨_, _, insertNode_new known, .one (.insert new known)⟩
  | some id =>
      obtain ⟨node, stored⟩ := getElem?_of_mem (grounded.stored new.name id known)
      exact ⟨_, _, insertNode_known known stored, .none⟩

theorem Grounded.insertNodes (grounded : Grounded store) (nodes : List NewNode) :
    ∃ count after, Engine.insertNodes nodes store = (.ok count, after) ∧
      Changes store (idsOfNodes nodes store) after := by
  unfold Engine.insertNodes
  -- The fold counts the new nodes from zero on; the induction needs every start.
  generalize 0 = start
  induction nodes generalizing store start with
  | nil => exact ⟨start, store, rfl, .none⟩
  | cons new nodes ih =>
      obtain ⟨⟨node, created⟩, between, ran, first⟩ := grounded.insertNode new
      simp only [idsOfNodes, ran]
      obtain ⟨count, after, rest, more⟩ := ih (grounded.changes first) (if created then start + 1 else start)
      refine ⟨count, after, ?_, first.trans more⟩
      have counted : (do
          let made ← Engine.insertNode new
          return if made.2 then start + 1 else start : Update MemoryStore Nat) store =
          (.ok (if created then start + 1 else start), between) := Update.bind_ok ran
      rw [List.foldlM_cons]
      exact (Update.bind_ok counted).trans rest

theorem Grounded.linkCall (grounded : Grounded store) (edges : List (NodeId × NodeId)) :
    ∃ result after, Engine.link edges store = (result, after) ∧ Changes store 0 after := by
  by_cases present : ∀ id ∈ touchedIds edges, id ∈ store.nodes
  · obtain ⟨added, after, ran, linked⟩ := link_ok grounded.indexed present
    exact ⟨.ok added, after, ran, .one (.link edges after present linked)⟩
  · obtain ⟨failure, ran⟩ := link_error (by simpa using present)
    exact ⟨.error failure, store, ran, .none⟩

theorem Grounded.resolveEdges (grounded : Grounded store) (edges : List (String × String)) :
    ∃ resolved skipped, Engine.resolveEdges store edges = .ok (resolved, skipped) ∧
      ∀ edge ∈ resolved, edge.1 ∈ store.nodes ∧ edge.2 ∈ store.nodes := by
  induction edges with
  | nil => exact ⟨[], [], rfl, by simp⟩
  | cons edge edges ih =>
      obtain ⟨parent, child⟩ := edge
      obtain ⟨resolved, skipped, rest, stored⟩ := ih
      simp only [Engine.resolveEdges, lookUp_eq, rest, bind, Except.bind]
      split
      · rename_i parentId childId parentFound childFound
        split
        · exact ⟨_, _, rfl, stored⟩
        · refine ⟨_, _, rfl, List.forall_mem_cons.2 ⟨⟨?_, ?_⟩, stored⟩⟩
          · exact grounded.stored parent parentId parentFound
          · exact grounded.stored child childId childFound
      · exact ⟨_, _, rfl, stored⟩

theorem present_of_stored {edges : List (NodeId × NodeId)}
    (stored : ∀ edge ∈ edges, edge.1 ∈ store.nodes ∧ edge.2 ∈ store.nodes) :
    ∀ id ∈ touchedIds edges, id ∈ store.nodes := by
  intro id touched
  obtain ⟨edge, member, -, rfl | rfl⟩ := mem_touchedIds.1 touched
  · exact (stored edge member).1
  · exact (stored edge member).2

theorem Grounded.ingest (grounded : Grounded store) (batch : IngestBatch) :
    ∃ report after, Engine.ingest batch store = (.ok report, after) ∧
      Changes store (idsOfNodes batch.nodes store) after := by
  obtain ⟨count, between, ran, inserted⟩ := grounded.insertNodes batch.nodes
  have groundedBetween := grounded.changes inserted
  obtain ⟨resolved, skipped, found, stored⟩ := groundedBetween.resolveEdges batch.edges
  have present := present_of_stored stored
  obtain ⟨added, after, linkedRun, linked⟩ := link_ok groundedBetween.indexed present
  unfold Engine.ingest
  rw [Update.bind_ok ran, Update.bind_read (Engine.resolveEdges · batch.edges) found]
  exact ⟨_, after, Update.bind_ok linkedRun, inserted.trans (.one (.link resolved after present linked))⟩

theorem Consistent.planRebuild (consistent : Consistent generated store) :
    (Engine.planRebuild store).Yields fun plan => match plan with
      | none => store.worklist = []
      | some (records, _) => Closures.Complete store.nodes records := by
  let nodes := store.nodeTable store.nodes.keys
  have same (id : NodeId) : nodes[id]? = store.nodes[id]? := store.getElem?_nodeTable_keys id
  have mirrored : nodes.Mirrored := by
    intro id other node neighbour found otherFound
    exact consistent.mirrored id other node neighbour (same id ▸ found) (same other ▸ otherFound)
  have coherent : isCoherent store = .ok store.worklist.isEmpty := rfl
  unfold Engine.planRebuild
  refine (Polled.Yields.lift coherent rfl).bind fun isEmpty known => ?_
  subst known
  split
  · rename_i empty
    exact .pure (List.isEmpty_iff.1 empty)
  · have ids : GraphStore.nodeIds store = .ok store.nodes.keys := rfl
    have loaded : GraphStore.nodes store store.nodes.keys = .ok nodes := rfl
    refine (Polled.Yields.lift ids rfl).bind fun listed known => ?_
    subst known
    refine (Polled.Yields.lift loaded rfl).bind fun table known => ?_
    subst known
    refine (buildClosures_yields mirrored).bind fun built ⟨_, complete⟩ => ?_
    refine Polled.Yields.poll.bind fun _ _ => .pure ?_
    exact complete.congr same

theorem planRebuild_plain {σ : Type} [GraphStore σ] (store : σ) :
    (planRebuild store).Ensures fun plan =>
      ∀ records report, plan = some (records, report) → ∀ closures ∈ records, closures.Plain := by
  unfold planRebuild
  refine Polled.Ensures.trivial.bind fun coherent _ => ?_
  split
  · exact .pure nofun
  · refine Polled.Ensures.trivial.bind fun ids _ => ?_
    refine Polled.Ensures.trivial.bind fun nodes _ => ?_
    refine (buildClosures_plain nodes).bind fun built plain => ?_
    refine Polled.Ensures.trivial.bind fun _ _ => .pure ?_
    rintro records report same
    obtain ⟨rfl, -⟩ := Prod.mk.inj (Option.some.inj same)
    exact plain

theorem rebuild_eq {σ : Type} [GraphStore σ] (cancellation : Cancellation) (store : σ) :
    rebuild cancellation store = match (planRebuild store).run' cancellation with
      | .error failure => (.error failure, store)
      | .ok none => (.ok none, store)
      | .ok (some (records, report)) =>
        (.ok (some report), GraphStore.clearWork (GraphStore.saveClosures records store)) := by
  unfold rebuild
  cases planned : (planRebuild store).run' cancellation with
  | error failure => exact Update.bind_read_error _ planned
  | ok plan =>
      rw [Update.bind_read (fun store => (planRebuild store).run' cancellation) planned]
      cases plan <;> rfl

theorem Consistent.rebuild (consistent : Consistent generated store) (cancellation : Cancellation) :
    ∃ result after, Engine.rebuild cancellation store = (result, after) ∧ (after = store ∨ Refreshed store after) := by
  rw [rebuild_eq]
  rcases consistent.planRebuild cancellation with ⟨plan, rest, ran, built, -⟩ | ⟨ran, -⟩
  · have planned : (Engine.planRebuild store).run' cancellation = .ok plan := by
      simp only [StateT.run', ran]
      rfl
    rw [planned]
    cases plan with
    | none => exact ⟨_, store, rfl, Or.inl rfl⟩
    | some plan => exact ⟨_, _, rfl, Or.inr ⟨plan.1, built, rfl⟩⟩
  · have failed : (Engine.planRebuild store).run' cancellation = .error .cancelled := by
      simp only [StateT.run', ran]
      rfl
    rw [failed]
    exact ⟨_, store, rfl, Or.inl rfl⟩

theorem setDependency_self (id : NodeId) (store : MemoryStore) :
    Engine.setDependency id id store = (.error (.selfDependency id), store) := by
  unfold Engine.setDependency
  rw [if_pos rfl]
  rfl

theorem Grounded.setDependency (grounded : Grounded store) (parent child : NodeId) :
    ∃ result after, Engine.setDependency parent child store = (result, after) ∧ Changes store 0 after := by
  by_cases loop : parent = child
  · subst loop
    exact ⟨_, store, setDependency_self parent store, .none⟩
  · obtain ⟨result, after, ran, changes⟩ := grounded.linkCall [(parent, child)]
    unfold Engine.setDependency
    rw [if_neg loop]
    cases result with
    | ok added => exact ⟨_, after, Update.bind_ok ran, changes⟩
    | error failure => exact ⟨_, after, Update.bind_error ran, changes⟩

theorem Grounded.operation_cases (grounded : Grounded store) (operation : Operation) :
    Changes store (operation.ids store) (operation.apply store) ∨
      (∃ cancellation, operation = .rebuild cancellation) ∨ operation = .clear := by
  cases operation with
  | addNode new =>
      obtain ⟨result, after, ran, changes⟩ := grounded.insertNode new
      have called : Engine.addNode new store = (.ok result.1, after) := Update.bind_ok ran
      have behind : (Operation.addNode new).apply store = after := congrArg Prod.snd called
      exact Or.inl (behind ▸ changes)
  | setDependency parent child =>
      obtain ⟨_, after, ran, changes⟩ := grounded.setDependency parent child
      have behind : (Operation.setDependency parent child).apply store = after := congrArg Prod.snd ran
      exact Or.inl (behind ▸ changes)
  | addDependencies edges =>
      obtain ⟨_, after, ran, changes⟩ := grounded.linkCall edges
      have behind : (Operation.addDependencies edges).apply store = after := congrArg Prod.snd ran
      exact Or.inl (behind ▸ changes)
  | ingest batch =>
      obtain ⟨_, after, ran, changes⟩ := grounded.ingest batch
      have behind : (Operation.ingest batch).apply store = after := congrArg Prod.snd ran
      exact Or.inl (behind ▸ changes)
  | rebuild cancellation => exact Or.inr (Or.inl ⟨cancellation, rfl⟩)
  | clear => exact Or.inr (Or.inr rfl)
  | putField tag key field data => exact Or.inl (.one (.custom tag key field data))

theorem Grounded.operation (grounded : Grounded store) (operation : Operation) : Grounded (operation.apply store) := by
  rcases grounded.operation_cases operation with changes | ⟨cancellation, rfl⟩ | rfl
  · exact grounded.changes changes
  · change Grounded (Engine.rebuild cancellation store).2
    rw [rebuild_eq]
    split
    · exact grounded
    · exact grounded
    · rename_i records report _
      change Grounded { records.foldl MemoryStore.saveClosures store with worklist := [] }
      rw [MemoryStore.foldl_saveClosures]
      exact grounded.congr rfl rfl
  · exact grounded.congr rfl rfl

theorem Consistent.operation (consistent : Consistent generated store) (operation : Operation) :
    Effect operation store (operation.apply store) := by
  rcases consistent.grounded.operation_cases operation with changes | ⟨cancellation, rfl⟩ | rfl
  · exact .changed _ changes
  · obtain ⟨_, after, ran, ended⟩ := consistent.rebuild cancellation
    have behind : (Operation.rebuild cancellation).apply store = after := congrArg Prod.snd ran
    rcases ended with rfl | refreshed
    · exact behind.symm ▸ .changed after .none
    · exact behind ▸ .refreshed after rfl refreshed
  · exact .dropped rfl

theorem Reachable.consistent (reachable : Reachable generated store) (few : generated < UInt32.size) :
    Consistent generated store := by
  induction reachable with
  | empty => exact consistent_empty
  | step earlier store operation _ ih =>
      have before := ih (by omega)
      exact before.effect (before.operation operation) few

end SupplyGraph.Engine
