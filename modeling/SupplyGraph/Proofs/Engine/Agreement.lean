import SupplyGraph.Proofs.Engine.Change
import SupplyGraph.Proofs.Store.Lawful

/-!
A call gives the same on any store as on the memory store that describes it, and leaves behind a store that is again
described. So what a run leaves in any store is what some run leaves in a memory store. Calls that do not touch the
closures need less of a description: that it tells the same about nodes and names.
-/

namespace SupplyGraph

open LawfulGraphStore (Holds)

variable {σ : Type} {store : σ} {contents : MemoryStore} {related : σ → MemoryStore → Prop}

variable [GraphStore σ]

/-- Related stores tell the same about nodes and names, and are again related when the same is written to both. -/
structure Tracks (related : σ → MemoryStore → Prop) : Prop where
  newId_eq : ∀ {store contents}, related store contents → (GraphStore.newId store).1 = contents.newId.1
  newId : ∀ {store contents}, related store contents → related (GraphStore.newId store).2 contents.newId.2
  saveNodes : ∀ {store contents} (nodes : List Node), related store contents → (∀ node ∈ nodes, node.Plain) →
    related (GraphStore.saveNodes nodes store) (nodes.foldl MemoryStore.saveNode contents)
  node : ∀ {store contents}, related store contents → ∀ id, GraphStore.node store id = contents.node id
  nodes : ∀ {store contents}, related store contents → ∀ ids, GraphStore.nodes store ids = .ok (contents.nodeTable ids)
  idOfName : ∀ {store contents}, related store contents →
    ∀ name, GraphStore.idOfName store name = contents.idOfName name
  saveClosures : ∀ {store contents} (records : List Closures), related store contents →
    (∀ closures ∈ records, closures.Plain) →
    related (GraphStore.saveClosures records store) (records.foldl MemoryStore.saveClosures contents)

theorem LawfulGraphStore.tracks [LawfulGraphStore σ] : Tracks (Holds : σ → MemoryStore → Prop) where
  newId_eq := LawfulGraphStore.newId_eq
  newId := LawfulGraphStore.newId
  saveNodes := LawfulGraphStore.saveNodes
  node := LawfulGraphStore.node
  nodes := LawfulGraphStore.nodes
  idOfName := LawfulGraphStore.idOfName
  saveClosures := LawfulGraphStore.saveClosures

namespace Engine

open Update (Agrees)

section

variable (tracks : Tracks related)
include tracks

theorem lookUp_congr (holds : related store contents) (name : String) : lookUp store name = lookUp contents name := by
  unfold lookUp
  rw [tracks.idOfName holds]
  rfl

theorem resolveEdges_congr (holds : related store contents) (edges : List (String × String)) :
    resolveEdges store edges = resolveEdges contents edges := by
  induction edges with
  | nil => rfl
  | cons edge edges ih =>
      obtain ⟨parent, child⟩ := edge
      simp only [resolveEdges, lookUp_congr tracks holds, ih]

theorem planLinks_congr (holds : related store contents) (edges : List (NodeId × NodeId)) :
    planLinks edges store = planLinks edges contents := by
  have nodes (ids : List NodeId) : GraphStore.nodes store ids = GraphStore.nodes contents ids := tracks.nodes holds ids
  simp only [planLinks, nodes]

theorem insertNode_agrees (holds : related store contents) (new : NewNode) :
    Agrees related (insertNode new) (insertNode new) store contents := by
  unfold insertNode
  refine (Agrees.read holds (lookUp_congr tracks holds new.name)).bind fun known after contentsAfter _ holds => ?_
  cases known with
  | some id =>
      refine (Agrees.read holds (tracks.node holds id)).bind fun node after contentsAfter _ holds => ?_
      exact .pure holds (node, false)
  | none =>
      have handedOut : Agrees related (modifyGet GraphStore.newId) (modifyGet GraphStore.newId) after contentsAfter :=
        ⟨congrArg Except.ok (tracks.newId_eq holds), tracks.newId holds⟩
      refine handedOut.bind fun id after contentsAfter _ holds => ?_
      have plain : ∀ node ∈ [{ id, type := new.type, name := new.name, metadata := new.metadata : Node }],
          node.Plain := by
        intro node member
        rw [List.mem_singleton.1 member]
        exact ⟨⟨rfl, rfl⟩, rfl, rfl⟩
      have plainClosures : ∀ closures ∈ [{ id : Closures }], closures.Plain := by
        intro closures member
        rw [List.mem_singleton.1 member]
        exact ⟨⟨rfl, rfl⟩, rfl, rfl⟩
      refine (Agrees.write (tracks.saveNodes _ holds plain)).bind fun _ after contentsAfter _ holds => ?_
      refine (Agrees.write (tracks.saveClosures _ holds plainClosures)).bind fun _ after contentsAfter _ holds => ?_
      exact .pure holds _

theorem insertNodes_agrees (holds : related store contents) (nodes : List NewNode) :
    Agrees related (insertNodes nodes) (insertNodes nodes) store contents := by
  unfold insertNodes
  generalize 0 = start
  induction nodes generalizing store contents start with
  | nil => exact .pure holds start
  | cons new nodes ih =>
      simp only [List.foldlM_cons]
      refine ((insertNode_agrees tracks holds new).returning _).bind ?_
      exact fun count after contentsAfter _ holds => ih holds count

omit tracks in
theorem planLinks_plain {contents : MemoryStore}
    (plain : ∀ (id : NodeId) node, contents.nodes[id]? = some node → node.Plain)
    {edges : List (NodeId × NodeId)} {changed : List Node} {added : Nat}
    (planned : planLinks edges contents = .ok (changed, added)) : ∀ node ∈ changed, node.Plain := by
  have present : ∀ id ∈ touchedIds edges, id ∈ contents.nodes := by
    by_contra absent
    obtain ⟨id, member, missing⟩ : ∃ id ∈ touchedIds edges, id ∉ contents.nodes := by simpa using absent
    obtain ⟨failure, failed⟩ := planLinks_error ⟨id, member, missing⟩
    cases planned.symm.trans failed
  obtain ⟨changes, follows, same⟩ := planLinks_ok present
  obtain ⟨rfl, -⟩ := Prod.mk.inj (Except.ok.inj (planned.symm.trans same))
  intro node member
  obtain ⟨id, inside, found⟩ := List.mem_filterMap.1 member
  rw [follows.nodes id (follows.changed id inside)] at found
  exact NodeView.addEdges_plain plain id node found

theorem link_agrees (grounded : Grounded contents) (holds : related store contents) (edges : List (NodeId × NodeId)) :
    Agrees related (link edges) (link edges) store contents := by
  unfold link
  refine (Agrees.read holds (planLinks_congr tracks holds edges)).bind fun plan after contentsAfter read holds => ?_
  obtain ⟨changed, added⟩ := plan
  obtain ⟨planned, rfl⟩ := Prod.mk.inj read
  have plain := planLinks_plain grounded.plain planned
  refine (Agrees.write (tracks.saveNodes _ holds plain)).bind fun _ after contentsAfter _ holds => ?_
  exact .pure holds added

theorem setDependency_agrees (grounded : Grounded contents) (holds : related store contents) (parent child : NodeId) :
    Agrees related (setDependency parent child) (setDependency parent child) store contents := by
  unfold setDependency
  split
  · exact (Agrees.throw holds _).bind fun _ _ _ thrown _ => nomatch (Prod.mk.inj thrown).1
  · exact (link_agrees tracks grounded holds _).returning _

theorem ingest_agrees (grounded : Grounded contents) (holds : related store contents) (batch : IngestBatch) :
    Agrees related (ingest batch) (ingest batch) store contents := by
  unfold ingest
  refine (insertNodes_agrees tracks holds batch.nodes).bind fun count after contentsAfter inserted holds => ?_
  obtain ⟨_, _, ran, changes⟩ := grounded.insertNodes batch.nodes
  obtain ⟨-, rfl⟩ := Prod.mk.inj (ran.symm.trans inserted)
  refine (Agrees.read holds (resolveEdges_congr tracks holds batch.edges)).bind fun edges _ _ read holds => ?_
  obtain ⟨resolved, skipped⟩ := edges
  obtain ⟨-, rfl⟩ := Prod.mk.inj read
  exact (link_agrees tracks (grounded.changes changes) holds resolved).returning _

theorem idsOfNode_congr (holds : related store contents) (new : NewNode) :
    idsOfNode new store = idsOfNode new contents := by
  simp only [idsOfNode, lookUp_congr tracks holds]

theorem idsOfNodes_congr (holds : related store contents) (nodes : List NewNode) :
    idsOfNodes nodes store = idsOfNodes nodes contents := by
  induction nodes generalizing store contents with
  | nil => rfl
  | cons new nodes ih =>
      obtain ⟨same, after⟩ := insertNode_agrees tracks holds new
      rcases ran : insertNode new store with ⟨result, next⟩
      rcases described : insertNode new contents with ⟨otherResult, nextContents⟩
      rw [ran, described] at same after
      obtain rfl : result = otherResult := same
      simp only [idsOfNodes, idsOfNode_congr tracks holds, ran, described]
      cases result with
      | ok made => exact congrArg (idsOfNode new contents + ·) (ih after)
      | error failure => rfl

theorem Operation.ids_congr (holds : related store contents) (operation : Operation) :
    operation.ids store = operation.ids contents := by
  cases operation with
  | addNode new => exact idsOfNode_congr tracks holds new
  | ingest batch => exact idsOfNodes_congr tracks holds batch.nodes
  | _ => rfl

end

variable [LawfulGraphStore σ]

open LawfulGraphStore (tracks)

theorem nodes_congr (holds : Holds store contents) (ids : List NodeId) :
    GraphStore.nodes store ids = GraphStore.nodes contents ids := LawfulGraphStore.nodes holds ids

theorem isCoherent_congr (holds : Holds store contents) : isCoherent store = isCoherent contents := by
  obtain ⟨ids, read, members⟩ := LawfulGraphStore.worklist holds
  have same : ids.isEmpty = contents.worklist.isEmpty := by
    rw [Bool.eq_iff_iff, List.isEmpty_iff, List.isEmpty_iff, List.eq_nil_iff_forall_not_mem,
      List.eq_nil_iff_forall_not_mem]
    simp only [members]
  unfold isCoherent
  rw [read]
  exact congrArg Except.ok same

theorem planRebuild_congr (holds : Holds store contents) : planRebuild store = planRebuild contents := by
  have listed : GraphStore.nodeIds store = GraphStore.nodeIds contents := LawfulGraphStore.nodeIds holds
  simp only [planRebuild, isCoherent_congr holds, listed, nodes_congr holds]

theorem rebuild_agrees (holds : Holds store contents) (cancellation : Cancellation) :
    Agrees Holds (rebuild cancellation) (rebuild cancellation) store contents := by
  unfold rebuild
  have same : (planRebuild store).run' cancellation = (planRebuild contents).run' cancellation := by
    rw [planRebuild_congr holds]
  refine (Agrees.read holds same).bind fun plan after contentsAfter planned holds => ?_
  cases plan with
  | none => exact .pure holds none
  | some plan =>
      have planned : (planRebuild contents).run' cancellation = .ok (some plan) := congrArg Prod.fst planned
      have plain := (planRebuild_plain contents).of_run' planned plan.1 plan.2 rfl
      refine (Agrees.write (LawfulGraphStore.saveClosures plan.1 holds plain)).bind fun _ _ _ _ holds => ?_
      exact (Agrees.write (LawfulGraphStore.clearWork holds)).bind fun _ _ _ _ holds => .pure holds _

theorem Operation.apply_holds (grounded : Grounded contents) (holds : Holds store contents) (operation : Operation) :
    Holds (operation.apply store) (operation.apply contents) ∨
      operation.ids contents = 0 ∧ Holds (operation.apply store) contents := by
  cases operation with
  | addNode new =>
      exact Or.inl ((insertNode_agrees tracks holds new).returning _).2
  | setDependency parent child => exact Or.inl (setDependency_agrees tracks grounded holds parent child).2
  | addDependencies edges => exact Or.inl (link_agrees tracks grounded holds edges).2
  | ingest batch => exact Or.inl (ingest_agrees tracks grounded holds batch).2
  | rebuild cancellation => exact Or.inl (rebuild_agrees holds cancellation).2
  | clear => exact Or.inl (LawfulGraphStore.dropClosures holds)
  | putField tag key field data =>
      -- Custom data is no part of the description, so the described run leaves the call out.
      refine Or.inr ⟨rfl, ?_⟩
      change Holds (Update.tryWrite (GraphStore.putField tag key field data) store).2 contents
      unfold Update.tryWrite
      split
      · rename_i changed written
        exact LawfulGraphStore.putField tag key field data holds written
      · exact holds

theorem Operation.apply_described {generated : Nat} (consistent : Consistent generated contents)
    (holds : Holds store contents) (operation : Operation) :
    ∃ after, Holds (operation.apply store) after ∧ Effect operation contents after := by
  rcases operation.apply_holds consistent.grounded holds with done | ⟨noIds, kept⟩
  · exact ⟨operation.apply contents, done, consistent.operation operation⟩
  · exact ⟨contents, kept, .changed contents (noIds ▸ .none)⟩

theorem Reachable.grounded {generated : Nat} (reachable : Reachable generated store) :
    ∃ contents, Holds store contents ∧ Grounded contents := by
  induction reachable with
  | empty => exact ⟨{}, LawfulGraphStore.empty, consistent_empty.grounded⟩
  | step _ store operation _ ih =>
      obtain ⟨contents, holds, grounded⟩ := ih
      rcases operation.apply_holds grounded holds with done | ⟨-, kept⟩
      · exact ⟨operation.apply contents, done, grounded.operation operation⟩
      · exact ⟨contents, kept, grounded⟩

theorem Reachable.described {generated : Nat} (reachable : Reachable generated store)
    (few : generated < UInt32.size) :
    ∃ contents : MemoryStore, Reachable generated contents ∧ Holds store contents := by
  induction reachable with
  | empty => exact ⟨GraphStore.empty, .empty, LawfulGraphStore.empty⟩
  | step earlier store operation _ ih =>
      obtain ⟨contents, before, holds⟩ := ih (by omega)
      rw [Operation.ids_congr tracks holds] at few ⊢
      rcases operation.apply_holds (before.consistent (by omega)).grounded holds with done | ⟨noIds, kept⟩
      · exact ⟨operation.apply contents, .step earlier contents operation before, done⟩
      · rw [noIds]
        exact ⟨contents, before, kept⟩

end Engine

end SupplyGraph
