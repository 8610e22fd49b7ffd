import SupplyGraph.Proofs.Engine.Atomicity
import SupplyGraph.Proofs.Engine.Framing
import SupplyGraph.Proofs.Engine.Ingestion

/-!
Ingestion that fails, in a store whose tables may hold anything. Each node is written before the next one is looked up,
and all of them before the edges are. So what is left behind is what adding the nodes in front one by one leaves, and
no edge: nothing at all exactly when their names were known before.
-/

namespace SupplyGraph.Engine

open PersistentStore (keyOfId)

section

variable {σ : Type} [GraphStore σ] {store between after : σ} {failure : Failure}

inductive Adds : List NewNode → σ → σ → Prop
  | nil (store : σ) : Adds [] store store
  | cons {new : NewNode} {later : List NewNode} {store between after : σ} {node : Node}
      (first : addNode new store = (.ok node, between)) (rest : Adds later between after) :
      Adds (new :: later) store after

/-- Why ingestion goes no further in a store, with these nodes of the batch to come: the next one cannot be added, or,
behind the last one, the names of an edge cannot be looked up or the nodes at the ends of the edges cannot be loaded. -/
inductive Obstacle (store : σ) (edges : List (String × String)) (failure : Failure) : List NewNode → Prop
  | node {new : NewNode} {later : List NewNode} (failed : addNode new store = (.error failure, store)) :
      Obstacle store edges failure (new :: later)
  | names (failed : resolveEdges store edges = .error failure) : Obstacle store edges failure []
  | ends {resolved : List (NodeId × NodeId)} {skipped : List (String × String)}
      (found : resolveEdges store edges = .ok (resolved, skipped))
      (failed : addDependencies resolved store = (.error failure, store)) : Obstacle store edges failure []

def countNode (count : Nat) (new : NewNode) : Update σ Nat := do
  let (_, created) ← insertNode new
  return if created then count + 1 else count

theorem countNode_eq (count : Nat) (new : NewNode) (store : σ) :
    countNode count new store =
      ((insertNode new store).1.map fun made => if made.2 then count + 1 else count, (insertNode new store).2) :=
  Update.bind_pure (insertNode new) _ store

theorem addNode_eq (new : NewNode) (store : σ) :
    addNode new store = ((insertNode new store).1.map Prod.fst, (insertNode new store).2) :=
  Update.bind_pure (insertNode new) _ store

theorem exists_countNode {new : NewNode} {node : Node} (added : addNode new store = (.ok node, between)) (count : Nat) :
    ∃ value, countNode count new store = (.ok value, between) := by
  rw [addNode_eq] at added
  obtain ⟨made, rfl⟩ := Prod.mk.inj added
  obtain ⟨first, inserted, -⟩ := map_eq_ok.1 made
  rw [countNode_eq, inserted]
  exact ⟨_, rfl⟩

theorem exists_addNode {new : NewNode} {count value : Nat}
    (counted : countNode count new store = (.ok value, between)) :
    ∃ node, addNode new store = (.ok node, between) := by
  rw [countNode_eq] at counted
  obtain ⟨made, rfl⟩ := Prod.mk.inj counted
  obtain ⟨first, inserted, -⟩ := map_eq_ok.1 made
  rw [addNode_eq, inserted]
  exact ⟨_, rfl⟩

theorem countNode_eq_error {count : Nat} {new : NewNode} :
    countNode count new store = (.error failure, after) ↔ addNode new store = (.error failure, after) := by
  rw [countNode_eq, addNode_eq, Prod.mk.injEq, Prod.mk.injEq, map_eq_error, map_eq_error]

theorem exists_foldlM_countNode {nodes : List NewNode} {start : Nat} :
    (∃ count, nodes.foldlM countNode start store = (.ok count, after)) ↔ Adds nodes store after := by
  induction nodes generalizing start store with
  | nil =>
      constructor
      · rintro ⟨count, ran⟩
        cases ran
        exact .nil _
      · rintro ⟨⟩
        exact ⟨start, rfl⟩
  | cons new nodes ih =>
      rw [List.foldlM_cons]
      constructor
      · rintro ⟨count, ran⟩
        rcases first : countNode start new store with ⟨result, between⟩
        cases result with
        | error reason =>
            rw [Update.bind_error first] at ran
            cases ran
        | ok value =>
            rw [Update.bind_ok first] at ran
            obtain ⟨node, added⟩ := exists_addNode first
            exact .cons added (ih.1 ⟨count, ran⟩)
      · rintro (_ | ⟨added, rest⟩)
        obtain ⟨value, first⟩ := exists_countNode added start
        rw [Update.bind_ok first]
        exact ih.2 rest

theorem insertNodes_eq_error {nodes : List NewNode} : insertNodes nodes store = (.error failure, after) ↔
    ∃ made new later, nodes = made ++ new :: later ∧ Adds made store after ∧
      addNode new after = (.error failure, after) := by
  rw [show insertNodes nodes = nodes.foldlM countNode 0 from rfl, Update.foldlM_eq_error]
  constructor
  · rintro ⟨made, new, later, count, between, split, ran, failed⟩
    have stopped := countNode_eq_error.1 failed
    -- A node that cannot be added leaves nothing behind, so the store is the one behind the nodes in front of it.
    obtain rfl := (atomic_insertNode new).returning Prod.fst between failure after stopped
    exact ⟨made, new, later, split, exists_foldlM_countNode.1 ⟨count, ran⟩, stopped⟩
  · rintro ⟨made, new, later, split, adds, stopped⟩
    obtain ⟨count, ran⟩ := exists_foldlM_countNode.2 adds
    exact ⟨made, new, later, count, after, split, ran, countNode_eq_error.2 stopped⟩

theorem ingest_eq_error {batch : IngestBatch} : ingest batch store = (.error failure, after) ↔
    ∃ made rest, batch.nodes = made ++ rest ∧ Adds made store after ∧ Obstacle after batch.edges failure rest := by
  unfold ingest
  rw [Update.bind_eq_error, insertNodes_eq_error]
  constructor
  · rintro (⟨made, new, later, split, adds, failed⟩ | ⟨count, between, inserted, failed⟩)
    · exact ⟨made, new :: later, split, adds, .node failed⟩
    · have adds : Adds batch.nodes store between := exists_foldlM_countNode.1 ⟨count, inserted⟩
      refine ⟨batch.nodes, [], (List.append_nil _).symm, ?_⟩
      cases found : resolveEdges between batch.edges with
      | error reason =>
          rw [Update.bind_read_error (resolveEdges · batch.edges) found] at failed
          cases failed
          exact ⟨adds, .names found⟩
      | ok resolution =>
          rw [Update.bind_read (resolveEdges · batch.edges) found] at failed
          rcases Update.bind_eq_error.1 failed with stopped | ⟨added, last, -, impossible⟩
          · obtain rfl := atomic_link resolution.1 between failure after stopped
            exact ⟨adds, .ends found stopped⟩
          · cases impossible
  · rintro ⟨made, rest, split, adds, obstacle⟩
    cases obstacle with
    | node failed => exact .inl ⟨made, _, _, split, adds, failed⟩
    | names failed =>
        rw [List.append_nil] at split
        obtain ⟨count, inserted⟩ := exists_foldlM_countNode.2 adds
        exact .inr ⟨count, after, split ▸ inserted, Update.bind_read_error (resolveEdges · batch.edges) failed⟩
    | ends found failed =>
        rw [List.append_nil] at split
        obtain ⟨count, inserted⟩ := exists_foldlM_countNode.2 adds
        refine .inr ⟨count, after, split ▸ inserted, ?_⟩
        rw [Update.bind_read (resolveEdges · batch.edges) found]
        exact Update.bind_error failed

end

variable {store after : PersistentStore} {failure : Failure}

theorem isUnknown_eq_false {name : String} :
    isUnknown store name = false ↔ ∃ id, GraphStore.idOfName store name = .ok id := by
  unfold isUnknown
  cases GraphStore.idOfName store name <;> simp [Except.toOption]

theorem lookUp_eq_some {name : String} {id : NodeId} :
    lookUp store name = .ok (some id) ↔ GraphStore.idOfName store name = .ok id := by
  unfold lookUp
  split <;> simp_all

theorem insertNode_tables {new : NewNode} (unknown : lookUp store new.name = .ok none) :
    (∀ name, GraphStore.idOfName (insertNode new store).2 name =
      if new.name = name then .ok (GraphStore.newId store).1 else GraphStore.idOfName store name) ∧
    ∀ id, GraphStore.node (insertNode new store).2 id = if (GraphStore.newId store).1 = id then
      .ok { id, type := new.type, name := new.name, metadata := new.metadata } else GraphStore.node store id := by
  rw [insertNode_unknown unknown]
  constructor
  · intro name
    let key := keyOfId (GraphStore.newId store).1
    change PersistentStore.idOfName _ name = _
    rw [PersistentStore.idOfName_eq_elim]
    change ((store.names.insert (Bytes.ofString new.name) key)[Bytes.ofString name]?).elim _ _ = _
    rw [Std.TreeMap.getElem?_insert]
    by_cases same : new.name = name
    · rw [if_pos same, if_pos (Std.compare_eq_iff_eq.2 (congrArg Bytes.ofString same))]
      exact PersistentStore.idOfKey_keyOfId _
    · rw [if_neg same, if_neg fun equal => same (Bytes.ofString_inj (Std.compare_eq_iff_eq.1 equal))]
      exact (PersistentStore.idOfName_eq_elim store name).symm
  · intro id
    let made : Node :=
      { id := (GraphStore.newId store).1, type := new.type, name := new.name, metadata := new.metadata }
    change PersistentStore.node _ id = _
    rw [PersistentStore.node_eq_elim]
    change ((store.nodes.insert (keyOfId made.id) made.toJson)[keyOfId id]?).elim _ _ = _
    rw [Std.TreeMap.getElem?_insert]
    by_cases same : made.id = id
    · rw [if_pos (Std.compare_eq_iff_eq.2 (congrArg keyOfId same)), if_pos same]
      have plain : made.Plain := ⟨⟨rfl, rfl⟩, rfl, rfl⟩
      exact same ▸ Node.ofJson_toJson plain
    · rw [if_neg fun equal => same (PersistentStore.keyOfId_inj _ _ (Std.compare_eq_iff_eq.1 equal)), if_neg same]
      exact (PersistentStore.node_eq_elim store id).symm

theorem addNode_cases {new : NewNode} {node : Node} (added : addNode new store = (.ok node, after)) :
    (isUnknown store new.name = false ∧ after = store) ∨
      (isUnknown store new.name = true ∧ lookUp store new.name = .ok none ∧ after = (insertNode new store).2) := by
  rw [addNode_eq] at added
  obtain ⟨made, rfl⟩ := Prod.mk.inj added
  cases found : lookUp store new.name with
  | error reason =>
      have failed : insertNode new store = (.error reason, store) := Update.bind_read_error (lookUp · new.name) found
      rw [failed] at made
      cases made
  | ok known =>
      cases known with
      | none =>
          refine .inr ⟨?_, rfl, rfl⟩
          rw [← Bool.not_eq_false, isUnknown_eq_false]
          rintro ⟨id, named⟩
          cases found.symm.trans (lookUp_eq_some.2 named)
      | some id =>
          refine .inl ⟨isUnknown_eq_false.2 ⟨id, lookUp_eq_some.1 found⟩, (insertNode_leaves ?_).1⟩
          rw [found]
          exact nofun

theorem Adds.known {nodes : List NewNode} (adds : Adds nodes store after) :
    (∀ name, isUnknown store name = false → isUnknown after name = false) ∧
      ∀ new ∈ nodes, isUnknown after new.name = false := by
  induction adds with
  | nil store => exact ⟨fun _ known => known, List.forall_mem_nil _⟩
  | @cons new later store between after node first rest ih =>
      have step : (∀ name, isUnknown store name = false → isUnknown between name = false) ∧
          isUnknown between new.name = false := by
        rcases addNode_cases first with ⟨known, rfl⟩ | ⟨-, unknown, rfl⟩
        · exact ⟨fun _ known => known, known⟩
        · simp only [isUnknown_eq_false, (insertNode_tables unknown).1]
          refine ⟨fun name ⟨id, named⟩ => ?_, _, if_pos trivial⟩
          by_cases same : new.name = name
          · exact ⟨_, if_pos same⟩
          · exact ⟨id, (if_neg same).trans named⟩
      refine ⟨fun name known => ih.1 name (step.1 name known), List.forall_mem_cons.2 ⟨ih.1 _ step.2, ih.2⟩⟩

theorem Adds.eq_iff {nodes : List NewNode} (adds : Adds nodes store after) :
    after = store ↔ ∀ new ∈ nodes, isUnknown store new.name = false := by
  constructor
  · rintro rfl
    exact adds.known.2
  · intro known
    induction adds with
    | nil store => rfl
    | cons first rest ih =>
        obtain ⟨here, others⟩ := List.forall_mem_cons.1 known
        rcases addNode_cases first with ⟨-, rfl⟩ | ⟨unknown, -⟩
        · exact ih others
        · rw [here] at unknown
          cases unknown

theorem Adds.edgeless {nodes : List NewNode} (adds : Adds nodes store after) (id : NodeId) :
    GraphStore.node after id = GraphStore.node store id ∨
      ∃ node, GraphStore.node after id = .ok node ∧ node.children = ∅ ∧ node.parents = ∅ := by
  induction adds with
  | nil store => exact .inl rfl
  | @cons new later store between after node first rest ih =>
      rcases ih with same | made
      · rw [same]
        rcases addNode_cases first with ⟨-, rfl⟩ | ⟨-, unknown, rfl⟩
        · exact .inl rfl
        · rw [(insertNode_tables unknown).2]
          split
          · exact .inr ⟨_, rfl, rfl, rfl⟩
          · exact .inl rfl
      · exact .inr made

/-- Whatever the tables of a database hold, ingestion that fails leaves them as they are once the nodes in front of the
obstacle are added one by one. No edge is added, and nothing at all has changed exactly when the names of these nodes
were known. -/
theorem failed_ingest_exact (store : PersistentStore) (batch : IngestBatch) {failure : Failure}
    {after : PersistentStore} (failed : ingest batch store = (.error failure, after)) :
    ∃ made rest, batch.nodes = made ++ rest ∧ Adds made store after ∧ Obstacle after batch.edges failure rest ∧
      (after = store ↔ ∀ new ∈ made, isUnknown store new.name = false) ∧
      ∀ id, GraphStore.node after id = GraphStore.node store id ∨
        ∃ node, GraphStore.node after id = .ok node ∧ node.children = ∅ ∧ node.parents = ∅ := by
  obtain ⟨made, rest, split, adds, obstacle⟩ := ingest_eq_error.1 failed
  exact ⟨made, rest, split, adds, obstacle, adds.eq_iff, adds.edgeless⟩

def strayBatch : IngestBatch := { nodes := [{ type := "library", name := "new" }], edges := [("short", "new")] }

theorem ingest_strayBatch :
    ingest strayBatch tornStore = (.error (.corruptRecord "id key of 2 bytes"), (ingest strayBatch tornStore).2) := by
  have failed : (ingest strayBatch tornStore).1 = .error (.corruptRecord "id key of 2 bytes") := by decide +kernel
  exact Prod.ext failed rfl

theorem failed_ingest_exact_tornStore :
    let after := (ingest strayBatch tornStore).2
    ingest strayBatch tornStore = (.error (.corruptRecord "id key of 2 bytes"), after) ∧
      ∃ made rest, strayBatch.nodes = made ++ rest ∧ Adds made tornStore after ∧
        Obstacle after strayBatch.edges (.corruptRecord "id key of 2 bytes") rest := by
  obtain ⟨made, rest, split, adds, obstacle, -⟩ := failed_ingest_exact tornStore strayBatch ingest_strayBatch
  exact ⟨ingest_strayBatch, made, rest, split, adds, obstacle⟩

/-- The new node is there although ingestion has failed. -/
theorem ingest_strayBatch_leaves_node :
    (∃ after, ingest strayBatch tornStore = (.error (.corruptRecord "id key of 2 bytes"), after) ∧
      GraphStore.idOfName tornStore "new" = .error (.nameNotFound "new") ∧ keyOfId 1 ∉ tornStore.nodes ∧
      GraphStore.idOfName after "new" = .ok 1 ∧ keyOfId 1 ∈ after.nodes) ∧
    ¬∀ (store : PersistentStore) (batch : IngestBatch) (failure : Failure) (after : PersistentStore),
      ingest batch store = (.error failure, after) → after = store := by
  have unknown : GraphStore.idOfName tornStore "new" = .error (.nameNotFound "new") := by decide +kernel
  have named : GraphStore.idOfName (ingest strayBatch tornStore).2 "new" = .ok 1 := by decide +kernel
  refine ⟨⟨_, ingest_strayBatch, unknown, by decide +kernel, named, by decide +kernel⟩, fun atomic => ?_⟩
  rw [atomic _ _ _ _ ingest_strayBatch] at named
  cases named.symm.trans unknown

end SupplyGraph.Engine
