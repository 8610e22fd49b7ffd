import SupplyGraph.Proofs.Engine.EdgeSets
import SupplyGraph.Proofs.Engine.Runs

/-!
Ingestion against the calls that do one thing at a time: a batch leaves the graph behind that adding its nodes one by
one, and then its edges in any order, leaves, and its report counts what is new.
-/

namespace SupplyGraph.Engine

open LawfulGraphStore (Holds tracks)

def firstOfEach : List NewNode → List NewNode
  | [] => []
  | new :: rest => new :: (firstOfEach rest).filter fun other => other.name ≠ new.name

section

variable {σ : Type} [GraphStore σ]

def isUnknown (store : σ) (name : String) : Bool := (GraphStore.idOfName store name).toOption.isNone

/-- The nodes whose names a store does not know, each as it is listed first. -/
def newcomers (store : σ) (nodes : List NewNode) : List NewNode :=
  firstOfEach (nodes.filter fun new => isUnknown store new.name)

def endsOf? (store : σ) (edge : String × String) : Option (NodeId × NodeId) :=
  match (GraphStore.idOfName store edge.1).toOption, (GraphStore.idOfName store edge.2).toOption with
  | some parent, some child => if parent = child then none else some (parent, child)
  | _, _ => none

def addingNodes (nodes : List NewNode) (store : σ) : σ := run (nodes.map .addNode) store

def remainingEdges (batch : IngestBatch) (store : σ) : List (NodeId × NodeId) :=
  batch.edges.filterMap (endsOf? (addingNodes batch.nodes store))

end

theorem firstOfEach_filter (keep : String → Bool) (nodes : List NewNode) :
    firstOfEach (nodes.filter fun new => keep new.name) = (firstOfEach nodes).filter fun new => keep new.name := by
  induction nodes with
  | nil => rfl
  | cons new nodes ih =>
      simp only [firstOfEach, List.filter_cons]
      cases kept : keep new.name with
      | true =>
          simp only [if_true, firstOfEach, ih, List.filter_filter, Bool.and_comm]
      | false =>
          simp only [Bool.false_eq_true, if_false, ih, List.filter_filter]
          refine List.filter_congr fun other _ => ?_
          by_cases same : other.name = new.name <;> simp [same, kept]

theorem nodup_firstOfEach (nodes : List NewNode) : ((firstOfEach nodes).map (·.name)).Nodup := by
  induction nodes with
  | nil => exact .nil
  | cons new nodes ih =>
      rw [firstOfEach, List.map_cons, List.nodup_cons]
      refine ⟨fun listed => ?_, (List.filter_sublist.map _).nodup ih⟩
      obtain ⟨other, member, same⟩ := List.mem_map.1 listed
      simpa [same] using (List.mem_filter.1 member).2

theorem mem_firstOfEach {nodes : List NewNode} {name : String} :
    name ∈ (firstOfEach nodes).map (·.name) ↔ name ∈ nodes.map (·.name) := by
  induction nodes with
  | nil => rfl
  | cons new nodes ih =>
      rw [List.map_cons, List.mem_cons, ← ih, firstOfEach, List.map_cons, List.mem_cons]
      by_cases same : name = new.name
      · simp [same]
      · simp only [same, false_or, List.mem_map, List.mem_filter, decide_eq_true_eq]
        constructor
        · exact fun ⟨other, ⟨member, _⟩, named⟩ => ⟨other, member, named⟩
        · exact fun ⟨other, member, named⟩ => ⟨other, ⟨member, named ▸ same⟩, named⟩

variable {generated : Nat} {store : MemoryStore}

theorem toOption_idOfName (store : MemoryStore) (name : String) :
    (GraphStore.idOfName store name).toOption = store.names[name]? := by
  change (store.idOfName name).toOption = _
  rw [MemoryStore.idOfName]
  cases store.names[name]? <;> rfl

theorem isUnknown_eq (store : MemoryStore) (name : String) : isUnknown store name = store.names[name]?.isNone := by
  rw [isUnknown, toOption_idOfName]

theorem newcomers_known {new : NewNode} {id : NodeId} (known : store.names[new.name]? = some id)
    (nodes : List NewNode) : newcomers store (new :: nodes) = newcomers store nodes := by
  rw [newcomers, List.filter_cons_of_neg (by simp [isUnknown_eq, known])]
  rfl

theorem newcomers_new {new : NewNode} (unknown : store.names[new.name]? = none) (nodes : List NewNode) :
    newcomers store (new :: nodes) = new :: newcomers (withNode new store) nodes := by
  have still (other : NewNode) : isUnknown (withNode new store) other.name =
      (decide (other.name ≠ new.name) && isUnknown store other.name) := by
    rw [isUnknown_eq, isUnknown_eq, getElem?_names_withNode]
    by_cases same : other.name = new.name
    · simp [same]
    · simp [same, Ne.symm same]
  rw [newcomers, List.filter_cons_of_pos (by simp [isUnknown_eq, unknown]), firstOfEach]
  simp only [newcomers, still, ← List.filter_filter]
  rw [firstOfEach_filter fun name => decide (name ≠ new.name)]

def idAfter (generated k : Nat) : NodeId := UInt32.ofNat (generated + 1 + k)

structure Created (generated : Nat) (made : List NewNode) (before after : MemoryStore) : Prop where
  here : ∀ k new, made[k]? = some new → after.nodes[idAfter generated k]? = some
    { id := idAfter generated k, type := new.type, name := new.name, metadata := new.metadata }
  elsewhere : ∀ id ∈ before.nodes, after.nodes[id]? = before.nodes[id]?
  newer : ∀ (id : NodeId) node, after.nodes[id]? = some node → id ∉ before.nodes →
    node.children = ∅ ∧ node.parents = ∅

theorem Created.none (generated : Nat) (store : MemoryStore) : Created generated [] store store where
  here k new listed := by simp at listed
  elsewhere _ _ := rfl
  newer _ _ found absent := absurd (mem_of_getElem? found) absent

theorem Created.cons {new : NewNode} {made : List NewNode} {after : MemoryStore}
    (consistent : Consistent generated store) (few : generated + 1 < UInt32.size)
    (rest : Created (generated + 1) made (withNode new store) after) :
    Created generated (new :: made) store after := by
  obtain ⟨nextId, free⟩ := consistent.next few
  have isNext : idAfter generated 0 = store.lastId + 1 := by
    rw [idAfter, Nat.add_zero, ← nextId, UInt32.ofNat_toNat]
  constructor
  case here =>
    intro k first listed
    cases k with
    | zero =>
        obtain rfl := Option.some.inj listed
        have present : store.lastId + 1 ∈ (withNode new store).nodes := Std.TreeMap.mem_insert.2 (.inl Std.compare_self)
        rw [isNext, rest.elsewhere _ present, getElem?_nodes_withNode, if_pos rfl]
        rfl
    | succ k =>
        have later := rest.here k first listed
        have shifted : idAfter (generated + 1) k = idAfter generated (k + 1) := by
          rw [idAfter, idAfter, Nat.add_right_comm (generated + 1) 1 k]
          rfl
        rwa [shifted] at later
  case elsewhere =>
    intro id present
    rw [rest.elsewhere id (Std.TreeMap.mem_insert.2 (.inr present)), getElem?_nodes_withNode, if_neg]
    exact fun same => free (same ▸ present)
  case newer =>
    intro id node found absent
    by_cases isNew : id ∈ (withNode new store).nodes
    · rw [rest.elsewhere id isNew, getElem?_nodes_withNode] at found
      split at found
      · obtain rfl := Option.some.inj found
        exact ⟨rfl, rfl⟩
      · exact absurd (mem_of_getElem? found) absent
    · exact rest.newer id node found isNew

def insertFrom (start : Nat) (nodes : List NewNode) : Update MemoryStore Nat :=
  nodes.foldlM (fun count new => do
    let (_, created) ← insertNode new
    return if created then count + 1 else count) start

theorem insertFrom_cons {new : NewNode} {node : Node} {created : Bool} {between : MemoryStore}
    (ran : insertNode new store = (.ok (node, created), between)) (start : Nat) (nodes : List NewNode) :
    insertFrom start (new :: nodes) store = insertFrom (if created then start + 1 else start) nodes between := by
  have counted : (do
      let made ← insertNode new
      return if made.2 then start + 1 else start : Update MemoryStore Nat) store =
      (.ok (if created then start + 1 else start), between) := Update.bind_ok ran
  rw [insertFrom, List.foldlM_cons]
  exact Update.bind_ok counted

theorem addingNodes_known {new : NewNode} {id : NodeId} {node : Node} (known : store.names[new.name]? = some id)
    (stored : store.nodes[id]? = some node) (nodes : List NewNode) :
    addingNodes (new :: nodes) store = addingNodes nodes store := by
  have added : (Operation.addNode new).apply store = store :=
    congrArg Prod.snd (Update.bind_ok (insertNode_known known stored))
  rw [addingNodes, List.map_cons, run, added]
  rfl

theorem addingNodes_new {new : NewNode} (unknown : store.names[new.name]? = none) (nodes : List NewNode) :
    addingNodes (new :: nodes) store = addingNodes nodes (withNode new store) := by
  have added : (Operation.addNode new).apply store = withNode new store :=
    congrArg Prod.snd (Update.bind_ok (insertNode_new unknown))
  rw [addingNodes, List.map_cons, run, added]
  rfl

theorem Grounded.insertFrom (grounded : Grounded store) (nodes : List NewNode) :
    (∀ start, Engine.insertFrom start nodes store =
      (.ok (start + (newcomers store nodes).length), addingNodes nodes store)) ∧
    idsOfNodes nodes store = (newcomers store nodes).length ∧ Grounded (addingNodes nodes store) := by
  induction nodes generalizing store with
  | nil => exact ⟨fun start => rfl, rfl, grounded⟩
  | cons new nodes ih =>
      cases known : store.names[new.name]? with
      | some id =>
          obtain ⟨node, stored⟩ := getElem?_of_mem (grounded.stored new.name id known)
          have ran := insertNode_known known stored
          have ids : idsOfNodes (new :: nodes) store = idsOfNodes nodes store := by
            simp [idsOfNodes, idsOfNode_eq, known, ran]
          rw [ids, newcomers_known known, addingNodes_known known stored]
          obtain ⟨inserted, count, later⟩ := ih grounded
          exact ⟨fun start => (insertFrom_cons ran start nodes).trans (inserted start), count, later⟩
      | none =>
          have ran := insertNode_new known
          have ids : idsOfNodes (new :: nodes) store = 1 + idsOfNodes nodes (Engine.withNode new store) := by
            simp [idsOfNodes, idsOfNode_eq, known, ran]
          rw [ids, newcomers_new known, addingNodes_new known]
          obtain ⟨inserted, count, later⟩ := ih (grounded.withNode known)
          refine ⟨fun start => ?_, by rw [count, List.length_cons, Nat.add_comm], later⟩
          rw [insertFrom_cons ran, List.length_cons, ← Nat.add_assoc, Nat.add_right_comm]
          exact inserted (start + 1)

theorem Consistent.addingNodes (consistent : Consistent generated store) (nodes : List NewNode)
    (few : generated + (newcomers store nodes).length < UInt32.size) :
    Consistent (generated + (newcomers store nodes).length) (addingNodes nodes store) ∧
      Created generated (newcomers store nodes) store (addingNodes nodes store) := by
  induction nodes generalizing generated store with
  | nil => exact ⟨consistent, .none generated store⟩
  | cons new nodes ih =>
      cases known : store.names[new.name]? with
      | some id =>
          obtain ⟨node, stored, -⟩ := consistent.named new.name id known
          rw [newcomers_known known, addingNodes_known known stored] at *
          exact ih consistent few
      | none =>
          rw [newcomers_new known, List.length_cons, Nat.add_comm _ 1, ← Nat.add_assoc] at few ⊢
          rw [addingNodes_new known]
          obtain ⟨later, created⟩ := ih (consistent.withNode (by omega) known) few
          exact ⟨later, .cons consistent (by omega) created⟩

theorem endsOf?_eq (store : MemoryStore) (edge : String × String) :
    endsOf? store edge = match store.names[edge.1]?, store.names[edge.2]? with
      | some parent, some child => if parent = child then none else some (parent, child)
      | _, _ => none := by
  rw [endsOf?, toOption_idOfName, toOption_idOfName]

theorem endsOf?_eq_some {edge : String × String} {parent child : NodeId} :
    endsOf? store edge = some (parent, child) ↔
      parent ≠ child ∧ store.names[edge.1]? = some parent ∧ store.names[edge.2]? = some child := by
  rw [endsOf?_eq]
  cases store.names[edge.1]? with
  | none => simp
  | some start =>
      cases store.names[edge.2]? with
      | none => simp
      | some finish =>
          by_cases same : start = finish
          · simp only [same, if_true, Option.some.injEq]
            exact ⟨nofun, fun ⟨different, start, finish⟩ => absurd (start.symm.trans finish) different⟩
          · simp only [if_neg same, Option.some.injEq, Prod.mk.injEq]
            refine ⟨?_, And.right⟩
            rintro ⟨rfl, rfl⟩
            exact ⟨same, rfl, rfl⟩

theorem resolveEdges_eq (store : MemoryStore) (edges : List (String × String)) :
    resolveEdges store edges =
      .ok (edges.filterMap (endsOf? store), edges.filter fun edge => (endsOf? store edge).isNone) := by
  induction edges with
  | nil => rfl
  | cons edge edges ih =>
      obtain ⟨parent, child⟩ := edge
      simp only [resolveEdges, lookUp_eq, ih, bind, Except.bind, List.filterMap_cons, List.filter_cons, endsOf?_eq]
      cases store.names[parent]? with
      | none => rfl
      | some parentId =>
          cases store.names[child]? with
          | none => rfl
          | some childId => by_cases same : parentId = childId <;> simp [same, pure, Except.pure]

theorem Linked.refl (store : MemoryStore) : Linked [] store store := ⟨fun _ => rfl, fun _ => rfl, rfl, rfl, rfl, fun _ => rfl⟩

theorem Linked.cons {edge : NodeId × NodeId} {edges : List (NodeId × NodeId)} {before between after : MemoryStore}
    (first : Linked [edge] before between) (rest : Linked edges between after) : Linked (edge :: edges) before after where
  nodes id := by
    rw [rest.nodes, funext first.nodes]
    rfl
  names name := (rest.names name).trans (first.names name)
  lastId := rest.lastId.trans first.lastId
  closures := rest.closures.trans first.closures
  custom := rest.custom.trans first.custom
  pending idle := by
    obtain rfl := rest.pending idle
    exact first.pending idle

theorem Consistent.run_setDependency (consistent : Consistent generated store) {edges : List (NodeId × NodeId)}
    (ends : ∀ edge ∈ edges, edge.1 ≠ edge.2 ∧ edge.1 ∈ store.nodes ∧ edge.2 ∈ store.nodes) :
    Linked edges store (run (edges.map fun edge => .setDependency edge.1 edge.2) store) := by
  induction edges generalizing store with
  | nil => exact .refl store
  | cons edge edges ih =>
      obtain ⟨⟨different, start, finish⟩, others⟩ := List.forall_mem_cons.1 ends
      have present : ∀ id ∈ touchedIds [edge], id ∈ store.nodes :=
        present_of_stored (by simpa using ⟨start, finish⟩)
      obtain ⟨added, between, ran, linked⟩ := link_ok consistent.indexed present
      have set : (Operation.setDependency edge.1 edge.2).apply store = between := by
        change (Engine.setDependency edge.1 edge.2 store).2 = between
        unfold Engine.setDependency
        rw [if_neg different]
        exact congrArg Prod.snd (Update.bind_ok ran)
      rw [List.map_cons, run, set]
      refine linked.cons (ih (consistent.link present linked) fun other listed => ?_)
      rw [linked.mem_nodes, linked.mem_nodes]
      exact others other listed

theorem Grounded.ends_stored (grounded : Grounded store) {edges : List (String × String)} :
    ∀ ends ∈ edges.filterMap (endsOf? store), ends.1 ≠ ends.2 ∧ ends.1 ∈ store.nodes ∧ ends.2 ∈ store.nodes := by
  rintro ⟨parent, child⟩ listed
  obtain ⟨edge, -, leads⟩ := List.mem_filterMap.1 listed
  obtain ⟨different, start, finish⟩ := endsOf?_eq_some.1 leads
  exact ⟨different, grounded.stored _ _ start, grounded.stored _ _ finish⟩

theorem Created.hasEdge_iff {made : List NewNode} {between : MemoryStore} (consistent : Consistent generated store)
    (created : Created generated made store between) (edge : NodeId × NodeId) :
    NodeView.HasEdge (between.nodes[·]?) edge ↔
      ∃ node, store.nodes[edge.1]? = some node ∧ edge.2 ∈ node.children.ids := by
  constructor
  · rintro ⟨parent, child, parentFound, -, listed, -⟩
    by_cases old : edge.1 ∈ store.nodes
    · exact ⟨parent, (created.elsewhere _ old).symm.trans parentFound, listed⟩
    · rw [(created.newer _ parent parentFound old).1] at listed
      exact absurd listed (IdSet.not_mem_empty _)
  · rintro ⟨parent, found, listed⟩
    obtain ⟨child, childFound⟩ := Option.isSome_iff_exists.1 (consistent.wired.closed _ parent _ found (.inl listed))
    have mirrored := (consistent.wired.mirrored _ _ parent child found childFound).1 listed
    exact ⟨parent, child, (created.elsewhere _ (mem_of_getElem? found)).trans found,
      (created.elsewhere _ (mem_of_getElem? childFound)).trans childFound, listed, mirrored⟩

theorem link_counted {edges : List (NodeId × NodeId)} (indexed : Indexed store)
    (present : ∀ id ∈ touchedIds edges, id ∈ store.nodes) :
    ∃ news after, NodeView.Missing (store.nodes[·]?) edges news ∧ link edges store = (.ok news.length, after) ∧
      Linked edges store after := by
  obtain ⟨added, after, ran, linked⟩ := link_ok indexed present
  obtain ⟨changes, news, counts, planned⟩ := planLinks_stored present
  refine ⟨news, after, counts.missing, ?_, linked⟩
  rw [link_eq, planned] at ran ⊢
  obtain ⟨-, rfl⟩ := Prod.mk.inj ran
  rfl

theorem Grounded.ingest_counted (grounded : Grounded store) (batch : IngestBatch) :
    ∃ news after, Engine.ingest batch store = (.ok
        { nodesAdded := (newcomers store batch.nodes).length
          edgesAdded := news.length
          skippedEdges := batch.edges.filter fun edge => (endsOf? (addingNodes batch.nodes store) edge).isNone },
        after) ∧
      NodeView.Missing ((addingNodes batch.nodes store).nodes[·]?) (remainingEdges batch store) news ∧
      Linked (remainingEdges batch store) (addingNodes batch.nodes store) after := by
  obtain ⟨inserted, -, later⟩ := grounded.insertFrom batch.nodes
  have resolved := resolveEdges_eq (addingNodes batch.nodes store) batch.edges
  have present : ∀ id ∈ touchedIds (remainingEdges batch store), id ∈ (addingNodes batch.nodes store).nodes :=
    present_of_stored fun ends listed => (later.ends_stored ends listed).2
  obtain ⟨news, after, missing, linkRun, linked⟩ := link_counted later.indexed present
  refine ⟨news, after, ?_, missing, linked⟩
  have nodesRun : Engine.insertNodes batch.nodes store = _ := inserted 0
  rw [Nat.zero_add] at nodesRun
  unfold Engine.ingest
  rw [Update.bind_ok nodesRun, Update.bind_read (Engine.resolveEdges · batch.edges) resolved]
  exact Update.bind_ok linkRun

section

variable {σ : Type} [GraphStore σ]

structure ShowSameGraph (store other : σ) : Prop where
  nodeIds : GraphStore.nodeIds store = GraphStore.nodeIds other
  node : ∀ id, GraphStore.node store id = GraphStore.node other id
  idOfName : ∀ name, GraphStore.idOfName store name = GraphStore.idOfName other name
  newId : (GraphStore.newId store).1 = (GraphStore.newId other).1

theorem ShowSameGraph.symm {store other : σ} (same : ShowSameGraph store other) : ShowSameGraph other store :=
  ⟨same.nodeIds.symm, fun id => (same.node id).symm, fun name => (same.idOfName name).symm, same.newId.symm⟩

theorem ShowSameGraph.trans {store other third : σ} (first : ShowSameGraph store other) (second : ShowSameGraph other third) :
    ShowSameGraph store third :=
  ⟨first.nodeIds.trans second.nodeIds, fun id => (first.node id).trans (second.node id),
    fun name => (first.idOfName name).trans (second.idOfName name), first.newId.trans second.newId⟩

/-- What a batch does to a store in which some ids have been generated, and what is reported of it. -/
structure Ingested (generated : Nat) (batch : IngestBatch) (store : σ) (report : IngestReport) (after : σ) : Prop where
  nodesAdded : report.nodesAdded = (newcomers store batch.nodes).length
  distinct : ((newcomers store batch.nodes).map (·.name)).Nodup
  unknown : ∀ name, name ∈ (newcomers store batch.nodes).map (·.name) ↔
    name ∈ batch.nodes.map (·.name) ∧ isUnknown store name
  created : ∀ k new, (newcomers store batch.nodes)[k]? = some new →
    ∃ id node, id.toNat = generated + 1 + k ∧ GraphStore.idOfName after new.name = .ok id ∧
      GraphStore.node after id = .ok node ∧ node.type = new.type ∧ node.metadata = new.metadata
  skippedEdges : report.skippedEdges =
    batch.edges.filter fun edge => (endsOf? (addingNodes batch.nodes store) edge).isNone
  edgesAdded : ∃ news : List (NodeId × NodeId), news.Nodup ∧ report.edgesAdded = news.length ∧
    ∀ edge, edge ∈ news ↔ edge ∈ remainingEdges batch store ∧
      ¬∃ node, GraphStore.node store edge.1 = .ok node ∧ edge.2 ∈ node.children.ids
  graph : ∀ order : List (NodeId × NodeId), (∀ edge, edge ∈ order ↔ edge ∈ remainingEdges batch store) →
    ShowSameGraph after
      (run (order.map fun edge => .setDependency edge.1 edge.2) (addingNodes batch.nodes store))

theorem Ingested.same_edges {generated : Nat} {store : σ} {batch : IngestBatch} {edges : List (String × String)}
    {report otherReport : IngestReport} {after later : σ} (ingested : Ingested generated batch store report after)
    (otherIngested : Ingested generated { batch with edges } store otherReport later)
    (same : ∀ edge, edge ∈ edges ↔ edge ∈ batch.edges) :
    otherReport.nodesAdded = report.nodesAdded ∧ otherReport.edgesAdded = report.edgesAdded ∧
      ShowSameGraph after later := by
  have remaining (edge : NodeId × NodeId) :
      edge ∈ remainingEdges { batch with edges } store ↔ edge ∈ remainingEdges batch store := by
    simp only [remainingEdges, List.mem_filterMap, same]
  refine ⟨otherIngested.nodesAdded.trans ingested.nodesAdded.symm, ?_, ?_⟩
  · obtain ⟨news, once, count, members⟩ := ingested.edgesAdded
    obtain ⟨more, moreOnce, moreCount, moreMembers⟩ := otherIngested.edgesAdded
    rw [count, moreCount]
    refine ((List.perm_ext_iff_of_nodup moreOnce once).2 fun edge => ?_).length_eq
    rw [moreMembers, members, remaining]
  · have first := ingested.graph (remainingEdges batch store) fun edge => Iff.rfl
    exact first.trans (otherIngested.graph (remainingEdges batch store) fun edge => (remaining edge).symm).symm

variable [LawfulGraphStore σ] {store other : σ} {contents otherContents : MemoryStore}

theorem ShowSameGraph.of_holds (holds : Holds store contents) (otherHolds : Holds other otherContents)
    (nodes : ∀ id : NodeId, contents.nodes[id]? = otherContents.nodes[id]?)
    (names : ∀ name : String, contents.names[name]? = otherContents.names[name]?)
    (lastId : contents.lastId = otherContents.lastId) : ShowSameGraph store other where
  nodeIds := by
    have equiv : contents.nodes.Equiv otherContents.nodes := Std.TreeMap.Equiv.of_forall_constGet?_eq nodes
    rw [LawfulGraphStore.nodeIds holds, LawfulGraphStore.nodeIds otherHolds, equiv.keys_eq]
  node id := by
    rw [LawfulGraphStore.node holds, LawfulGraphStore.node otherHolds, MemoryStore.node, MemoryStore.node, nodes]
  idOfName name := by
    rw [LawfulGraphStore.idOfName holds, LawfulGraphStore.idOfName otherHolds, MemoryStore.idOfName,
      MemoryStore.idOfName, names]
  newId := by
    rw [LawfulGraphStore.newId_eq holds, LawfulGraphStore.newId_eq otherHolds]
    exact congrArg (· + 1) lastId

theorem isUnknown_congr (holds : Holds store contents) (name : String) :
    isUnknown store name = isUnknown contents name := by
  rw [isUnknown, LawfulGraphStore.idOfName holds]
  rfl

theorem newcomers_congr (holds : Holds store contents) (nodes : List NewNode) :
    newcomers store nodes = newcomers contents nodes := by
  simp only [newcomers, isUnknown_congr holds]

theorem endsOf?_congr (holds : Holds store contents) : endsOf? store = endsOf? contents := by
  funext edge
  rw [endsOf?, LawfulGraphStore.idOfName holds, LawfulGraphStore.idOfName holds]
  rfl

theorem addingNodes_holds (holds : Holds store contents) (nodes : List NewNode) :
    Holds (addingNodes nodes store) (addingNodes nodes contents) := by
  induction nodes generalizing store contents with
  | nil => exact holds
  | cons new nodes ih => exact ih ((insertNode_agrees tracks holds new).returning Prod.fst).2

theorem Consistent.setDependencies_holds {generated : Nat} (consistent : Consistent generated contents)
    (few : generated < UInt32.size) (holds : Holds store contents) (edges : List (NodeId × NodeId)) :
    Holds (run (edges.map fun edge => .setDependency edge.1 edge.2) store)
      (run (edges.map fun edge => .setDependency edge.1 edge.2) contents) := by
  induction edges generalizing store contents with
  | nil => exact holds
  | cons edge edges ih =>
      obtain ⟨_, after, ran, changes⟩ := consistent.grounded.setDependency edge.1 edge.2
      have same : (Engine.setDependency edge.1 edge.2 contents).2 = after := congrArg Prod.snd ran
      have later : Consistent generated (Engine.setDependency edge.1 edge.2 contents).2 :=
        same ▸ consistent.changes changes few
      exact ih later (setDependency_agrees tracks consistent.grounded holds edge.1 edge.2).2

theorem Consistent.ingested {generated : Nat} (consistent : Consistent generated contents)
    (holds : Holds store contents) (batch : IngestBatch)
    (few : generated + idsOfNodes batch.nodes contents < UInt32.size) :
    ∃ report after, Engine.ingest batch store = (.ok report, after) ∧ Ingested generated batch store report after := by
  obtain ⟨news, contentsAfter, ran, missing, linked⟩ := consistent.grounded.ingest_counted batch
  obtain ⟨-, count, grounded⟩ := consistent.grounded.insertFrom batch.nodes
  rw [count] at few
  obtain ⟨later, created⟩ := consistent.addingNodes batch.nodes few
  obtain ⟨same, holdsAfter⟩ := ingest_agrees tracks consistent.grounded holds batch
  have between := addingNodes_holds holds batch.nodes
  have ends : remainingEdges batch store = remainingEdges batch contents := by
    rw [remainingEdges, endsOf?_congr between]
    rfl
  rw [ran] at same holdsAfter
  refine ⟨_, (Engine.ingest batch store).2, Prod.ext same rfl, ?_⟩
  constructor
  case nodesAdded => rw [newcomers_congr holds]
  case distinct => exact nodup_firstOfEach _
  case unknown =>
    intro name
    rw [newcomers, mem_firstOfEach]
    simp only [List.mem_map, List.mem_filter]
    constructor
    · rintro ⟨new, ⟨listed, unknown⟩, rfl⟩
      exact ⟨⟨new, listed, rfl⟩, unknown⟩
    · rintro ⟨⟨new, listed, rfl⟩, unknown⟩
      exact ⟨new, ⟨listed, unknown⟩, rfl⟩
  case created =>
    intro k new listed
    rw [newcomers_congr holds] at listed
    have position := (List.getElem?_eq_some_iff.1 listed).1
    have number : (idAfter generated k).toNat = generated + 1 + k := by
      rw [idAfter, UInt32.toNat_ofNat']
      exact Nat.mod_eq_of_lt (show generated + 1 + k < UInt32.size by omega)
    have made := created.here k new listed
    obtain ⟨node, found, withEdges⟩ := NodeView.addEdges_withEdges _ (remainingEdges batch contents) made
    have named : contentsAfter.names[new.name]? = some (idAfter generated k) :=
      (linked.names new.name).trans (later.indexed _ _ made).2
    exact ⟨_, node, number, (idOfName_eq_ok holdsAfter).2 named, (node_eq_ok holdsAfter).2 ((linked.nodes _).trans found),
      withEdges.kept.type, withEdges.kept.metadata⟩
  case skippedEdges => rw [endsOf?_congr between]
  case edgesAdded =>
    refine ⟨news, missing.once, rfl, fun edge => ?_⟩
    simp only [ends, node_eq_ok holds]
    rw [missing.mem, created.hasEdge_iff consistent]
    exact ⟨fun ⟨listed, _, absent⟩ => ⟨listed, absent⟩,
      fun ⟨listed, absent⟩ => ⟨listed, (grounded.ends_stored edge listed).1, absent⟩⟩
  case graph =>
    intro order members
    rw [ends] at members
    have oneByOne := later.run_setDependency fun edge listed => grounded.ends_stored edge ((members edge).1 listed)
    refine .of_holds holdsAfter (later.setDependencies_holds few between order) (fun id => ?_) (fun name => ?_) ?_
    · rw [linked.nodes, oneByOne.nodes, NodeView.addEdges_congr later.plain fun edge => (members edge).symm]
    · rw [linked.names, oneByOne.names]
    · rw [linked.lastId, oneByOne.lastId]

/-- Ingestion behind every run is adding the nodes of the batch one by one and then its edges in any order; the report
counts the new names and the new edges, and lists the edges that do not lead to two different nodes. -/
theorem ingest_exact {generated : Nat} (reachable : Reachable generated store) (batch : IngestBatch)
    (few : generated + idsOfNodes batch.nodes store < UInt32.size - 1) :
    ∃ report after, ingest batch store = (.ok report, after) ∧ Ingested generated batch store report after ∧
      ∀ edges, (∀ edge, edge ∈ edges ↔ edge ∈ batch.edges) →
        ∃ otherReport later, ingest { batch with edges } store = (.ok otherReport, later) ∧
          otherReport.nodesAdded = report.nodesAdded ∧ otherReport.edgesAdded = report.edgesAdded ∧
          ShowSameGraph after later := by
  obtain ⟨contents, described, holds⟩ := reachable.described (by omega)
  have consistent := described.consistent (by omega)
  rw [idsOfNodes_congr tracks holds] at few
  have fits : generated + idsOfNodes batch.nodes contents < UInt32.size := by omega
  obtain ⟨report, after, ran, ingested⟩ := consistent.ingested holds batch fits
  refine ⟨report, after, ran, ingested, fun edges same => ?_⟩
  obtain ⟨otherReport, later, otherRan, otherIngested⟩ := consistent.ingested holds { batch with edges } fits
  exact ⟨otherReport, later, otherRan, ingested.same_edges otherIngested same⟩

end

theorem ingest_exact_pairStore :
    let batch : IngestBatch := {
      nodes := [{ type := "library", name := "child" }, { type := "application", name := "new" },
        { type := "library", name := "new" }]
      edges := [("parent", "child"), ("new", "parent"), ("parent", "new"), ("new", "parent"), ("new", "new"),
        ("new", "gone")] }
    Reachable 2 pairStore ∧ 2 + idsOfNodes batch.nodes pairStore < UInt32.size - 1 ∧
    ∃ report after, ingest batch pairStore = (.ok report, after) ∧ Ingested 2 batch pairStore report after ∧
      report = ⟨1, 2, [("new", "new"), ("new", "gone")]⟩ := by
  intro batch
  have few : 2 + idsOfNodes batch.nodes pairStore < UInt32.size - 1 := by decide +kernel
  have reported : (ingest batch pairStore).1 = .ok ⟨1, 2, [("new", "new"), ("new", "gone")]⟩ := by decide +kernel
  obtain ⟨report, after, ran, ingested, -⟩ := ingest_exact reachable_pairStore batch few
  rw [ran] at reported
  exact ⟨reachable_pairStore, few, report, after, ran, ingested, Except.ok.inj reported⟩

end SupplyGraph.Engine
