import SupplyGraph.Proofs.Engine.Call
import SupplyGraph.Proofs.Engine.Ingestion
import SupplyGraph.Proofs.Store.Saving

/-!
The worklist is precise. A call that adds nodes or dependencies leaves the store as it is when there is nothing new to
add, or when it fails; otherwise it changes the nodes and leaves work behind. This holds of every run, also of one that
has used up the ids.
-/

namespace SupplyGraph.Engine

open LawfulGraphStore (Holds tracks)
open Update (Agrees)

section

variable {σ : Type} [GraphStore σ]

def Call.isAddition : Call → Bool
  | addNode _ | setDependency _ _ | addDependencies _ | ingest _ => true
  | _ => false

def AllStand (store : σ) (edges : List (NodeId × NodeId)) : Prop :=
  ∀ edge ∈ edges, edge.1 ≠ edge.2 → (GraphStore.view store).HasEdge edge

/-- All names that the call lists for nodes are known, and all its edges are there. -/
def Call.Redundant (store : σ) : Call → Prop
  | addNode new => isUnknown store new.name = false
  | setDependency parent child => AllStand store [(parent, child)]
  | addDependencies edges => AllStand store edges
  | ingest batch => (∀ new ∈ batch.nodes, isUnknown store new.name = false) ∧
      AllStand store (batch.edges.filterMap (endsOf? store))
  | _ => True

end

structure Touched (before after : MemoryStore) : Prop where
  differs : ∃ id : NodeId, after.nodes[id]? ≠ before.nodes[id]?
  pending : after.worklist ≠ []

variable {before after store : MemoryStore}

theorem view_memory (store : MemoryStore) : GraphStore.view store = (store.nodes[·]?) := by
  have itself : Holds store store := ⟨store.custom, rfl⟩
  exact view_eq itself

theorem Grounded.differs (grounded : Grounded before) {id : NodeId} {node : Node}
    (found : after.nodes[id]? = some node) (unknown : before.names[node.name]? = none) :
    after.nodes[id]? ≠ before.nodes[id]? := by
  intro same
  have known := (grounded.indexed id node (same.symm.trans found)).2
  rw [unknown] at known
  cases known

theorem Grounded.touched_withNode (grounded : Grounded store) {new : NewNode}
    (unknown : store.names[new.name]? = none) : Touched store (Engine.withNode new store) := by
  have found : (Engine.withNode new store).nodes[store.lastId + 1]? = some (madeNode new store) := by
    rw [getElem?_nodes_withNode, if_pos rfl]
  constructor
  case differs => exact ⟨store.lastId + 1, grounded.differs found unknown⟩
  case pending => simp [Engine.withNode]

theorem Linked.stands {edges : List (NodeId × NodeId)} {edge : NodeId × NodeId} (linked : Linked edges before after)
    (listed : edge ∈ edges) (different : edge.1 ≠ edge.2) (start : edge.1 ∈ before.nodes)
    (finish : edge.2 ∈ before.nodes) : NodeView.HasEdge (after.nodes[·]?) edge := by
  have view : (fun id : NodeId => after.nodes[id]?) = NodeView.addEdges (before.nodes[·]?) edges := funext linked.nodes
  rw [view]
  apply (NodeView.hasEdge_addEdges different _ _).2 (Or.inr listed)
  · exact Std.TreeMap.mem_iff_isSome_getElem?.1 start
  · exact Std.TreeMap.mem_iff_isSome_getElem?.1 finish

theorem Linked.touched {edges : List (NodeId × NodeId)} (linked : Linked edges before after)
    (present : ∀ id ∈ touchedIds edges, id ∈ before.nodes) (needed : ¬AllStand before edges) :
    Touched before after := by
  simp only [AllStand, view_memory, not_forall] at needed
  obtain ⟨edge, listed, different, missing⟩ := needed
  obtain ⟨start, finish⟩ := ends_touched edge listed different
  have stands := linked.stands listed different (present _ start) (present _ finish)
  constructor
  case differs =>
    by_contra none
    have same : (fun id : NodeId => after.nodes[id]?) = fun id => before.nodes[id]? :=
      funext fun id => not_not.1 fun differs => none ⟨id, differs⟩
    rw [same] at stands
    exact missing stands
  case pending =>
    intro idle
    rw [linked.pending idle] at stands
    exact missing stands

theorem planLinks_known {edges : List (NodeId × NodeId)} (known : AllStand store edges) :
    planLinks edges store = .ok ([], 0) := by
  rw [AllStand, view_memory] at known
  have present : ∀ id ∈ touchedIds edges, id ∈ store.nodes := by
    intro id touched
    obtain ⟨edge, listed, different, isEnd⟩ := mem_touchedIds.1 touched
    obtain ⟨parent, child, parentFound, childFound, -⟩ := known edge listed different
    rcases isEnd with rfl | rfl
    · exact mem_of_getElem? parentFound
    · exact mem_of_getElem? childFound
  obtain ⟨changes, news, counts, planned⟩ := planLinks_stored present
  have nothing : news = [] := by
    apply List.eq_nil_iff_forall_not_mem.2
    intro edge isNew
    obtain ⟨listed, different, missing⟩ := (counts.missing.mem edge).1 isNew
    exact missing (known edge listed different)
  subst nothing
  have unchanged : changes.changed = ∅ := IdSet.ext fun id => by simp [counts.changed]
  rw [planned, unchanged]
  rfl

theorem firstOfEach_eq_nil {nodes : List NewNode} : firstOfEach nodes = [] ↔ nodes = [] := by
  cases nodes <;> simp [firstOfEach]

theorem newcomers_eq_nil {σ : Type} [GraphStore σ] {store : σ} {nodes : List NewNode} :
    newcomers store nodes = [] ↔ ∀ new ∈ nodes, isUnknown store new.name = false := by
  rw [newcomers, firstOfEach_eq_nil, List.filter_eq_nil_iff]
  simp

theorem Grounded.addingNodes_cases (grounded : Grounded store) (nodes : List NewNode) :
    newcomers store nodes = [] ∧ addingNodes nodes store = store ∨
      newcomers store nodes ≠ [] ∧ (addingNodes nodes store).worklist ≠ [] ∧
        ∃ (id : NodeId) (node : Node), (addingNodes nodes store).nodes[id]? = some node ∧
          store.names[node.name]? = none := by
  induction nodes generalizing store with
  | nil => exact Or.inl ⟨rfl, rfl⟩
  | cons new nodes ih =>
      cases known : store.names[new.name]? with
      | some id =>
          obtain ⟨node, stored⟩ := getElem?_of_mem (grounded.stored new.name id known)
          rw [newcomers_known known, addingNodes_known known stored]
          exact ih grounded
      | none =>
          rw [newcomers_new known, addingNodes_new known]
          apply Or.inr
          apply And.intro (List.cons_ne_nil _ _)
          -- A later node may get the id of this one, but then its name is new too.
          rcases ih (grounded.withNode known) with ⟨-, same⟩ | ⟨-, pending, id, node, found, unknown⟩
          · rw [same]
            apply And.intro (by simp [Engine.withNode])
            exact ⟨_, madeNode new store, by rw [getElem?_nodes_withNode, if_pos rfl], known⟩
          · apply And.intro pending
            apply Exists.intro id
            apply Exists.intro node
            apply And.intro found
            rw [getElem?_names_withNode] at unknown
            split at unknown
            · cases unknown
            · exact unknown

theorem Grounded.names_addingNodes (grounded : Grounded store) {nodes : List NewNode} {name : String}
    (known : (store.names[name]?).isSome ∨ name ∈ nodes.map (·.name)) :
    ((addingNodes nodes store).names[name]?).isSome := by
  induction nodes generalizing store with
  | nil => exact known.resolve_right List.not_mem_nil
  | cons new nodes ih =>
      rw [List.map_cons, List.mem_cons] at known
      cases found : store.names[new.name]? with
      | some id =>
          obtain ⟨node, stored⟩ := getElem?_of_mem (grounded.stored new.name id found)
          rw [addingNodes_known found stored]
          apply ih grounded
          rcases known with known | rfl | later
          · exact Or.inl known
          · exact Or.inl (by rw [found]; rfl)
          · exact Or.inr later
      | none =>
          rw [addingNodes_new found]
          apply ih (grounded.withNode found)
          rw [getElem?_names_withNode]
          rcases known with known | rfl | later
          · exact Or.inl (by split <;> simp [known])
          · exact Or.inl (by simp)
          · exact Or.inr later

theorem Linked.endsOf?_eq {edges : List (NodeId × NodeId)} (linked : Linked edges before after) :
    endsOf? after = endsOf? before := by
  funext edge
  rw [Engine.endsOf?_eq, Engine.endsOf?_eq, linked.names, linked.names]

theorem Grounded.touched_ingest (grounded : Grounded store) {batch : IngestBatch}
    (linked : Linked (remainingEdges batch store) (addingNodes batch.nodes store) after)
    (needed : ¬(Call.ingest batch).Redundant store) : Touched store after := by
  rcases grounded.addingNodes_cases batch.nodes with ⟨none, same⟩ | ⟨-, pending, id, node, found, unknown⟩
  · rw [remainingEdges, same] at linked
    apply linked.touched
    · exact present_of_stored fun ends listed => (grounded.ends_stored ends listed).2
    · exact fun stand => needed ⟨newcomers_eq_nil.1 none, stand⟩
  · obtain ⟨now, here, withEdges⟩ := NodeView.addEdges_withEdges _ (remainingEdges batch store) found
    rw [← withEdges.kept.name] at unknown
    constructor
    case differs => exact ⟨id, grounded.differs ((linked.nodes id).trans here) unknown⟩
    case pending =>
      intro idle
      rw [linked.pending idle] at idle
      exact pending idle

theorem Grounded.redundant_ingested (grounded : Grounded store) {batch : IngestBatch}
    (linked : Linked (remainingEdges batch store) (addingNodes batch.nodes store) after) :
    (Call.ingest batch).Redundant after := by
  obtain ⟨-, -, between⟩ := grounded.insertFrom batch.nodes
  constructor
  · intro new listed
    rw [isUnknown_eq, linked.names, Option.isNone_eq_false_iff]
    exact grounded.names_addingNodes (Or.inr (List.mem_map_of_mem listed))
  · rw [linked.endsOf?_eq]
    intro edge listed different
    obtain ⟨-, start, finish⟩ := between.ends_stored edge listed
    rw [view_memory]
    exact linked.stands listed different start finish

section

variable {σ α β : Type} [GraphStore σ]

/-- The update leaves the nodes as they are exactly when it is redundant or fails. Then nothing at all has changed, and
otherwise there is work. -/
structure Precise (update : Update σ α) (redundant : Prop) (store : σ) : Prop where
  unchanged_iff : (∀ id, GraphStore.node (update store).2 id = GraphStore.node store id) ↔
    redundant ∨ ∃ failure, (update store).1 = .error failure
  same : (∀ id, GraphStore.node (update store).2 id = GraphStore.node store id) → (update store).2 = store
  pending : (∃ id, GraphStore.node (update store).2 id ≠ GraphStore.node store id) →
    ∃ ids, GraphStore.worklist (update store).2 = .ok ids ∧ ids ≠ []

variable {store : σ} {contents : MemoryStore} {update : Update σ α} {redundant : Prop}

theorem Precise.returning (precise : Precise update redundant store) (answer : α → β) :
    Precise (do return answer (← update)) redundant store := by
  have failed : (∃ failure, (update store).1.map answer = .error failure) ↔
      ∃ failure, (update store).1 = .error failure := by
    cases (update store).1 <;> simp [Except.map]
  constructor
  case unchanged_iff =>
    rw [Update.bind_pure, failed]
    exact precise.unchanged_iff
  case same =>
    rw [Update.bind_pure]
    exact precise.same
  case pending =>
    rw [Update.bind_pure]
    exact precise.pending

theorem Precise.of_same {result : Outcome α} (ran : update store = (result, store))
    (idle : redundant ∨ ∃ failure, result = .error failure) : Precise update redundant store := by
  constructor
  case unchanged_iff =>
    rw [ran]
    exact iff_of_true (fun id => rfl) idle
  case same => exact fun _ => congrArg Prod.snd ran
  case pending =>
    rintro ⟨id, differs⟩
    rw [ran] at differs
    exact absurd rfl differs

variable [LawfulGraphStore σ]

theorem Precise.of_touched {described : Update MemoryStore α} {value : α} {contentsAfter : MemoryStore}
    (holds : Holds store contents) (agrees : Agrees Holds update described store contents)
    (ran : described contents = (.ok value, contentsAfter)) (touched : Touched contents contentsAfter)
    (needed : ¬redundant) : Precise update redundant store := by
  obtain ⟨result, holdsAfter⟩ := agrees
  rw [ran] at result holdsAfter
  -- Both stores show the nodes of the memory stores that describe them.
  have changed : ¬∀ id, GraphStore.node (update store).2 id = GraphStore.node store id := by
    intro same
    obtain ⟨id, differs⟩ := touched.differs
    have views : GraphStore.view (update store).2 = GraphStore.view store := funext fun id => congrArg _ (same id)
    rw [view_eq holds, view_eq holdsAfter] at views
    exact differs (congrFun views id)
  constructor
  case unchanged_iff =>
    apply iff_of_false changed
    rintro (idle | ⟨failure, failed⟩)
    · exact needed idle
    · cases result.symm.trans failed
  case same => exact fun same => absurd same changed
  case pending =>
    intro _
    obtain ⟨ids, read, members⟩ := LawfulGraphStore.worklist holdsAfter
    obtain ⟨id, waits⟩ := List.exists_mem_of_ne_nil _ touched.pending
    exact ⟨ids, read, List.ne_nil_of_mem ((members id).2 waits)⟩

theorem allStand_congr (holds : Holds store contents) (edges : List (NodeId × NodeId)) :
    AllStand store edges ↔ AllStand contents edges := by
  rw [AllStand, AllStand, view_eq holds, view_memory]

theorem Call.redundant_ingest_congr (holds : Holds store contents) (batch : IngestBatch) :
    (Call.ingest batch).Redundant store ↔ (Call.ingest batch).Redundant contents := by
  simp only [Call.Redundant, isUnknown_congr holds, endsOf?_congr holds, allStand_congr holds]

theorem insertNode_redundant (grounded : Grounded contents) (holds : Holds store contents) {new : NewNode}
    (known : isUnknown store new.name = false) : ∃ node, insertNode new store = (.ok (node, false), store) := by
  rw [isUnknown_congr holds, isUnknown_eq, Option.isNone_eq_false_iff] at known
  obtain ⟨id, named⟩ := Option.isSome_iff_exists.1 known
  obtain ⟨node, -, ran⟩ := insertNode_stored grounded holds named
  exact ⟨node, ran⟩

theorem insertNodes_redundant (grounded : Grounded contents) (holds : Holds store contents) {nodes : List NewNode}
    (known : ∀ new ∈ nodes, isUnknown store new.name = false) : insertNodes nodes store = (.ok 0, store) := by
  unfold insertNodes
  induction nodes with
  | nil => rfl
  | cons new nodes ih =>
      obtain ⟨node, ran⟩ := insertNode_redundant grounded holds (known new List.mem_cons_self)
      have first : (do
          let made ← insertNode new
          return if made.2 then 0 + 1 else 0 : Update σ Nat) store = (.ok 0, store) := Update.bind_ok ran
      rw [List.foldlM_cons]
      exact (Update.bind_ok first).trans (ih fun other listed => known other (List.mem_cons_of_mem _ listed))

theorem insertNode_precise (grounded : Grounded contents) (holds : Holds store contents) (new : NewNode) :
    Precise (insertNode new) (isUnknown store new.name = false) store := by
  by_cases known : isUnknown store new.name = false
  · obtain ⟨node, ran⟩ := insertNode_redundant grounded holds known
    exact .of_same ran (Or.inl known)
  · have unknown : contents.names[new.name]? = none := by
      rw [isUnknown_congr holds, isUnknown_eq, Bool.not_eq_false, Option.isNone_iff_eq_none] at known
      exact known
    exact .of_touched holds (insertNode_agrees tracks holds new) (insertNode_new unknown)
      (grounded.touched_withNode unknown) known

variable [QuietGraphStore σ]

theorem link_redundant (holds : Holds store contents) {edges : List (NodeId × NodeId)} (known : AllStand store edges) :
    link edges store = (.ok 0, store) := by
  rw [allStand_congr holds] at known
  have planned : planLinks edges store = .ok ([], 0) := by rw [planLinks_congr tracks holds, planLinks_known known]
  have ran : link edges store = (.ok 0, GraphStore.saveNodes [] store) := Update.bind_read (planLinks edges) planned
  rw [ran, QuietGraphStore.saveNodes_nil]

theorem link_precise (grounded : Grounded contents) (holds : Holds store contents) (edges : List (NodeId × NodeId)) :
    Precise (link edges) (AllStand store edges) store := by
  by_cases known : AllStand store edges
  · exact .of_same (link_redundant holds known) (Or.inl known)
  by_cases present : ∀ id ∈ touchedIds edges, id ∈ contents.nodes
  · obtain ⟨count, after, ran, linked⟩ := link_ok grounded.indexed present
    have touched := linked.touched present (mt (allStand_congr holds edges).2 known)
    exact .of_touched holds (link_agrees tracks grounded holds edges) ran touched known
  · obtain ⟨failure, failed⟩ := planLinks_error (by simpa using present)
    rw [← planLinks_congr tracks holds] at failed
    exact .of_same (Update.bind_read_error (planLinks edges) failed) (Or.inr ⟨failure, rfl⟩)

theorem setDependency_precise (grounded : Grounded contents) (holds : Holds store contents) (parent child : NodeId) :
    Precise (setDependency parent child) (AllStand store [(parent, child)]) store := by
  unfold setDependency
  split
  · exact .of_same (Update.bind_error rfl) (Or.inr ⟨_, rfl⟩)
  · exact (link_precise grounded holds [(parent, child)]).returning fun _ => ()

theorem ingest_redundant (grounded : Grounded contents) (holds : Holds store contents) {batch : IngestBatch}
    (redundant : (Call.ingest batch).Redundant store) :
    ingest batch store = (.ok
      { nodesAdded := 0, edgesAdded := 0
        skippedEdges := batch.edges.filter fun edge => (endsOf? store edge).isNone }, store) := by
  obtain ⟨nodes, edges⟩ := redundant
  have resolved : resolveEdges store batch.edges = .ok (batch.edges.filterMap (endsOf? store),
      batch.edges.filter fun edge => (endsOf? store edge).isNone) := by
    rw [resolveEdges_congr tracks holds, resolveEdges_eq, endsOf?_congr holds]
  unfold ingest
  rw [Update.bind_ok (insertNodes_redundant grounded holds nodes),
    Update.bind_read (resolveEdges · batch.edges) resolved]
  exact Update.bind_ok (link_redundant holds edges)

theorem ingest_precise (grounded : Grounded contents) (holds : Holds store contents) (batch : IngestBatch) :
    Precise (ingest batch) ((Call.ingest batch).Redundant store) store := by
  by_cases known : (Call.ingest batch).Redundant store
  · exact .of_same (ingest_redundant grounded holds known) (Or.inl known)
  · obtain ⟨news, after, ran, missing, linked⟩ := grounded.ingest_counted batch
    have touched := grounded.touched_ingest linked (mt (Call.redundant_ingest_congr holds batch).2 known)
    exact .of_touched holds (ingest_agrees tracks grounded holds batch) ran touched known

theorem ingest_twice (grounded : Grounded contents) (holds : Holds store contents) (batch : IngestBatch) :
    ∃ report after, ingest batch store = (.ok report, after) ∧
      ingest batch after = (.ok { report with nodesAdded := 0, edgesAdded := 0 }, after) := by
  obtain ⟨news, contentsAfter, ran, missing, linked⟩ := grounded.ingest_counted batch
  obtain ⟨result, holdsAfter⟩ := ingest_agrees tracks grounded holds batch
  rw [ran] at result holdsAfter
  obtain ⟨-, -, between⟩ := grounded.insertFrom batch.nodes
  have again := ingest_redundant (between.link linked) holdsAfter
    ((Call.redundant_ingest_congr holdsAfter batch).2 (grounded.redundant_ingested linked))
  rw [endsOf?_congr holdsAfter, linked.endsOf?_eq] at again
  exact ⟨_, (ingest batch store).2, Prod.ext result rfl, again⟩

/-- A call that adds leaves behind every run exactly the store it finds, with its worklist, its closures and its ids, or
it changes a node and leaves work. A batch that is ingested twice adds nothing the second time. -/
theorem additions_precise {generated : Nat} (reachable : Reachable generated store) :
    (∀ call : Call, call.isAddition → Precise call.run (call.Redundant store) store) ∧
    ∀ batch, ∃ report after, ingest batch store = (.ok report, after) ∧
      ingest batch after = (.ok { report with nodesAdded := 0, edgesAdded := 0 }, after) := by
  obtain ⟨contents, holds, grounded⟩ := reachable.grounded
  constructor
  · intro call adds
    cases call with
    | addNode new => exact ((insertNode_precise grounded holds new).returning Prod.fst).returning Answer.node
    | setDependency parent child =>
        exact (setDependency_precise grounded holds parent child).returning fun _ => Answer.done
    | addDependencies edges => exact (link_precise grounded holds edges).returning Answer.count
    | ingest batch => exact (ingest_precise grounded holds batch).returning Answer.ingested
    | _ => cases adds
  · exact ingest_twice grounded holds

theorem additions_precise_refreshedPair :
    let known : Call := .addNode { type := "library", name := "parent" }
    let fresh : Call := .addNode { type := "library", name := "other" }
    let batch : IngestBatch := { nodes := [{ type := "library", name := "other" }]
                                 edges := [("parent", "child"), ("other", "parent"), ("other", "nowhere")] }
    Reachable 2 refreshedPair ∧ (known.run refreshedPair).2 = refreshedPair ∧
      (∃ ids, GraphStore.worklist (fresh.run refreshedPair).2 = .ok ids ∧ ids ≠ []) ∧
      ∃ report after, ingest batch refreshedPair = (.ok report, after) ∧
        ingest batch after = (.ok { report with nodesAdded := 0, edgesAdded := 0 }, after) := by
  intro known fresh batch
  obtain ⟨precise, twice⟩ := additions_precise reachable_refreshedPair
  apply And.intro reachable_refreshedPair
  refine ⟨?unchanged, ?waiting, twice batch⟩
  case unchanged =>
    have isKnown : known.Redundant refreshedPair := by
      change isUnknown refreshedPair "parent" = false
      decide +kernel
    have unchanged := (precise known rfl).unchanged_iff.2 (Or.inl isKnown)
    exact (precise known rfl).same unchanged
  case waiting =>
    have unknown : refreshedPair.names["other"]? = none := by decide +kernel
    have isNew : ¬fresh.Redundant refreshedPair := by
      change ¬isUnknown refreshedPair "other" = false
      rw [isUnknown_eq, unknown]
      decide
    have added : insertNode { type := "library", name := "other" } refreshedPair = _ := insertNode_new unknown
    have succeeds : (fresh.run refreshedPair).1 = _ := congrArg Prod.fst (Update.bind_ok (Update.bind_ok added))
    apply (precise fresh rfl).pending
    by_contra none
    have unchanged : ∀ id, GraphStore.node (fresh.run refreshedPair).2 id = GraphStore.node refreshedPair id := by
      intro id
      exact not_not.1 fun differs => none ⟨id, differs⟩
    rcases (precise fresh rfl).unchanged_iff.1 unchanged with redundant | ⟨failure, failed⟩
    · exact isNew redundant
    · cases succeeds.symm.trans failed

end

end SupplyGraph.Engine
