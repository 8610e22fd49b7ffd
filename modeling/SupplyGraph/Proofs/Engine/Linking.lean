import SupplyGraph.Proofs.Engine.EdgeSets
import SupplyGraph.Proofs.Format.Runs
import SupplyGraph.Proofs.Store.Saving

/-!
Adding a list of edges to a store whose nodes can be read, whatever edges they have: what is counted, what is written
and what is left alone.
-/

namespace SupplyGraph

namespace NodeView

def AtMissing (view : NodeView) (edges : List (NodeId × NodeId)) (id : NodeId) : Prop :=
  ∃ edge ∈ edges, edge.1 ≠ edge.2 ∧ ¬view.HasEdge edge ∧ (id = edge.1 ∨ id = edge.2)

theorem Missing.atMissing_iff {view : NodeView} {edges missing : List (NodeId × NodeId)}
    (missingEdges : view.Missing edges missing) {id : NodeId} :
    view.AtMissing edges id ↔ ∃ edge ∈ missing, id = edge.1 ∨ id = edge.2 := by
  simp only [AtMissing, missingEdges.mem, and_assoc]

end NodeView

namespace Engine

open NodeView (Missing WithEdges)
open GraphStore (view CanRead)
open SavingGraphStore (Waiting Faithful rest)

variable {σ : Type} [GraphStore σ]

/-- Every node can be read under its own id, and its name leads to it. -/
structure Readable (store : σ) : Prop where
  canRead : ∀ id, CanRead store id
  own : ∀ id node, GraphStore.node store id = .ok node → node.id = id
  indexed : ∀ id node, GraphStore.node store id = .ok node → GraphStore.idOfName store node.name = .ok id

def missingEnds (store : σ) (edges : List (NodeId × NodeId)) : Set NodeId :=
  {id | (∃ edge ∈ edges, edge.1 ≠ edge.2 ∧ (id = edge.1 ∨ id = edge.2)) ∧
    GraphStore.node store id = .error (.nodeNotFound id)}

theorem Readable.missingEnds_eq {store : σ} (readable : Readable store) (edges : List (NodeId × NodeId)) :
    missingEnds store edges = {id | id ∈ touchedIds edges ∧ view store id = none} := by
  refine Set.ext fun id => ?_
  change _ ∧ _ ↔ _ ∧ _
  rw [mem_touchedIds, (readable.canRead id).view_eq_none]

theorem map_filterMap_of_found {α β : Type} {find : α → Option β} {key : β → α} {items : List α}
    (found : ∀ item ∈ items, ∃ value, find item = some value ∧ key value = item) :
    (items.filterMap find).map key = items := by
  rw [List.map_filterMap]
  refine (List.filterMap_congr fun item member => ?_).trans List.filterMap_some
  obtain ⟨value, here, own⟩ := found item member
  rw [here, Option.map_some, own]

structure Rewrites (store : σ) (edges : List (NodeId × NodeId)) (nodes : List Node) : Prop where
  once : (nodes.map (·.id)).Nodup
  ends : ∀ id, id ∈ nodes.map (·.id) ↔ (view store).AtMissing edges id
  withEdges : ∀ node ∈ nodes, (view store).addEdges edges node.id = some node
  unchanged : ∀ id, ¬(view store).AtMissing edges id → (view store).addEdges edges id = view store id

structure HasNodes (store : σ) (nodes : List Node) : Prop where
  stored : ∀ node ∈ nodes, GraphStore.node store node.id = .ok node
  others : ∀ id, id ∉ nodes.map (·.id) → GraphStore.node store id = .error (.nodeNotFound id)

namespace HasNodes

variable {store : σ} {nodes : List Node} (has : HasNodes store nodes)
include has

theorem of_read {id : NodeId} {node : Node} (read : GraphStore.node store id = .ok node) : node ∈ nodes ∧ node.id = id := by
  by_cases member : id ∈ nodes.map (·.id)
  · obtain ⟨other, listed, rfl⟩ := List.mem_map.1 member
    obtain rfl := Except.ok.inj ((has.stored other listed).symm.trans read)
    exact ⟨listed, rfl⟩
  · cases (has.others id member).symm.trans read

theorem readable (indexed : ∀ node ∈ nodes, GraphStore.idOfName store node.name = .ok node.id) : Readable store := by
  constructor
  case canRead =>
    intro id
    by_cases member : id ∈ nodes.map (·.id)
    · obtain ⟨node, listed, rfl⟩ := List.mem_map.1 member
      exact .inl ⟨node, has.stored node listed⟩
    · exact .inr (has.others id member)
  case own => exact fun id node read => (has.of_read read).2
  case indexed =>
    intro id node read
    obtain ⟨listed, rfl⟩ := has.of_read read
    exact indexed node listed

theorem not_mem_of_absent {id : NodeId} (absent : GraphStore.node store id = .error (.nodeNotFound id)) :
    id ∉ nodes.map (·.id) := by
  rintro member
  obtain ⟨node, listed, rfl⟩ := List.mem_map.1 member
  cases (has.stored node listed).symm.trans absent

theorem missingEnds_eq_empty {edges : List (NodeId × NodeId)} (ends : ∀ edge ∈ edges, edge.1 ≠ edge.2 →
    edge.1 ∈ nodes.map (·.id) ∧ edge.2 ∈ nodes.map (·.id)) : missingEnds store edges = ∅ := by
  refine Set.eq_empty_iff_forall_notMem.2 fun id ⟨⟨edge, listed, different, isEnd⟩, absent⟩ => ?_
  obtain ⟨parent, child⟩ := ends edge listed different
  rcases isEnd with rfl | rfl
  · exact has.not_mem_of_absent absent parent
  · exact has.not_mem_of_absent absent child

end HasNodes

variable [SavingGraphStore σ] {store : σ} {edges : List (NodeId × NodeId)}

theorem Readable.addDependencies_eq (readable : Readable store) (present : missingEnds store edges = ∅) :
    ∃ news nodes, (view store).Missing edges news ∧ Rewrites store edges nodes ∧
      addDependencies edges store = (.ok news.length, GraphStore.saveNodes nodes store) := by
  obtain ⟨nodes, read, shows⟩ :=
    SavingGraphStore.nodes fun id (_ : id ∈ (touchedIds edges).toList) => readable.canRead id
  have stored : ∀ id ∈ touchedIds edges, (view store id).isSome := by
    intro id touched
    rw [readable.missingEnds_eq] at present
    refine Option.isSome_iff_ne_none.2 fun gone => ?_
    exact Set.eq_empty_iff_forall_notMem.1 present id ⟨touched, gone⟩
  obtain ⟨changes, news, follows, counts, planned⟩ := planLinks_counted read shows stored
  have changed (id : NodeId) : id ∈ changes.changed ↔ (view store).AtMissing edges id :=
    (counts.changed id).trans counts.missing.atMissing_iff.symm
  -- A changed id has a node of its own, so the saved nodes have the changed ids, each once.
  have found : ∀ id ∈ changes.changed, ∃ node, changes.nodes[id]? = some node ∧ node.id = id ∧
      (view store).addEdges edges id = some node := by
    intro id member
    have touched := follows.changed id member
    obtain ⟨before, read⟩ := Option.isSome_iff_exists.1 (stored id touched)
    obtain ⟨node, here, withEdges⟩ := NodeView.addEdges_withEdges (view store) edges read
    have own := readable.own id before (GraphStore.view_eq_some.1 read)
    exact ⟨node, (follows.nodes id touched).trans here, withEdges.kept.id.trans own, here⟩
  have ids : (changes.changed.toList.filterMap (changes.nodes[·]?)).map (·.id) = changes.changed.toList := by
    refine map_filterMap_of_found fun id member => ?_
    obtain ⟨node, here, own, -⟩ := found id member
    exact ⟨node, here, own⟩
  refine ⟨news, _, counts.missing, ?_, Update.bind_read (planLinks edges) planned⟩
  constructor
  case once =>
    rw [ids]
    exact changes.changed.nodup
  case ends =>
    intro id
    rw [ids, ← IdSet.mem_def, changed]
  case withEdges =>
    intro node listed
    obtain ⟨id, member, here⟩ := List.mem_filterMap.1 listed
    obtain ⟨other, there, own, withEdges⟩ := found id member
    obtain rfl := Option.some.inj (here.symm.trans there)
    rw [own, withEdges]
  case unchanged => exact fun id outside => follows.unchanged id (mt (changed id).1 outside)

/-- The edges have been added: the nodes at the ends of the missing ones have changed and wait, and all else is as it
was. -/
structure EdgesAdded (edges : List (NodeId × NodeId)) (before after : σ) : Prop where
  nodes : ∀ id node, GraphStore.node before id = .ok node →
    ∃ now, GraphStore.node after id = .ok now ∧ WithEdges edges id node now
  elsewhere : ∀ id, ¬(view before).AtMissing edges id → GraphStore.node after id = GraphStore.node before id
  absent : ∀ id, GraphStore.node before id = .error (.nodeNotFound id) →
    GraphStore.node after id = .error (.nodeNotFound id)
  rest : rest after = rest before
  waiting : ∀ id, Waiting after id ↔ Waiting before id ∨ (view before).AtMissing edges id

/-- The nodes that the edges change can be read once they have been saved. -/
def Faithfully (store : σ) (edges : List (NodeId × NodeId)) : Prop :=
  ∀ id node, (view store).AtMissing edges id → (view store).addEdges edges id = some node → @Faithful σ _ _ node

theorem Rewrites.edgesAdded {nodes : List Node} (rewrites : Rewrites store edges nodes) (readable : Readable store)
    (present : missingEnds store edges = ∅) (faithful : Faithfully store edges) :
    EdgesAdded edges store (GraphStore.saveNodes nodes store) := by
  have unsaved {id : NodeId} (outside : ¬(view store).AtMissing edges id) :
      GraphStore.node (GraphStore.saveNodes nodes store) id = GraphStore.node store id :=
    SavingGraphStore.others store (mt (rewrites.ends id).1 outside)
  constructor
  case nodes =>
    intro id before read
    obtain ⟨now, found, withEdges⟩ := NodeView.addEdges_withEdges (view store) edges (GraphStore.view_eq_some.2 read)
    refine ⟨now, ?_, withEdges⟩
    by_cases inside : (view store).AtMissing edges id
    · obtain ⟨node, listed, rfl⟩ := List.mem_map.1 ((rewrites.ends id).2 inside)
      obtain rfl := Option.some.inj (found.symm.trans (rewrites.withEdges node listed))
      exact SavingGraphStore.saved store rewrites.once now listed (faithful now.id now inside found)
    · rw [unsaved inside, ← GraphStore.view_eq_some, ← found, rewrites.unchanged id inside]
  case elsewhere => exact fun id => unsaved
  case absent =>
    intro id gone
    have outside : ¬(view store).AtMissing edges id := fun ⟨edge, listed, different, _, isEnd⟩ =>
      Set.eq_empty_iff_forall_notMem.1 present id ⟨⟨edge, listed, different, isEnd⟩, gone⟩
    rw [unsaved outside, gone]
  case rest =>
    refine SavingGraphStore.rest_saveNodes fun node listed => ?_
    obtain ⟨before, present, kept⟩ := NodeView.addEdges_kept (rewrites.withEdges node listed)
    rw [kept.name]
    exact readable.indexed node.id before (GraphStore.view_eq_some.1 present)
  case waiting =>
    intro id
    rw [SavingGraphStore.waiting_saveNodes, rewrites.ends]

/-- Adding a list of edges fails at the smallest end without a node and then changes nothing; otherwise it counts the
missing edges, puts the listed ones in place and makes the ends of the missing ones wait. -/
theorem addDependencies_exact (readable : Readable store) (edges : List (NodeId × NodeId)) :
    (∀ missing, addDependencies edges store = (.error (.nodeNotFound missing), store) ↔
      IsLeast (missingEnds store edges) missing) ∧
    (missingEnds store edges = ∅ → Faithfully store edges →
      ∃ news after, (view store).Missing edges news ∧ addDependencies edges store = (.ok news.length, after) ∧
        EdgesAdded edges store after) := by
  refine ⟨fun missing => ?_, fun present faithful => ?_⟩
  · obtain ⟨nodes, read, shows⟩ :=
      SavingGraphStore.nodes fun id (_ : id ∈ (touchedIds edges).toList) => readable.canRead id
    rw [readable.missingEnds_eq, ← planLinks_missing read shows]
    unfold addDependencies link
    cases planned : planLinks edges store with
    | error failure =>
        rw [Update.bind_read_error (planLinks edges) planned, Prod.mk.injEq, and_iff_left rfl, Except.error.injEq,
          Except.error.injEq]
    | ok plan =>
        rw [Update.bind_read (planLinks edges) planned]
        exact iff_of_false (fun same => nomatch (Prod.mk.inj same).1) nofun
  · obtain ⟨news, nodes, missing, rewrites, ran⟩ := readable.addDependencies_eq present
    exact ⟨news, _, missing, ran, rewrites.edgesAdded readable present faithful⟩

theorem faithfully_of_plain {store : PersistentStore} (plain : ∀ id node, GraphStore.node store id = .ok node → node.Plain)
    (edges : List (NodeId × NodeId)) : Faithfully store edges := fun id node _ found =>
  NodeView.addEdges_plain (fun id node found => plain id node (GraphStore.view_eq_some.1 found)) id node found

def parentNode (children : Bitmap) : Node := { id := 1, type := "library", name := "parent", children }

def childNode : Node := { id := 2, type := "library", name := "child" }

def halfStore : PersistentStore := GraphStore.saveNodes [parentNode (.ofSet (.singleton 2)), childNode] {}

theorem hasNodes_halfStore : HasNodes halfStore [parentNode (.ofSet (.singleton 2)), childNode] where
  stored node listed := by
    have plain : node.Plain := by rcases List.mem_pair.1 listed with rfl | rfl <;> exact ⟨⟨rfl, rfl⟩, rfl, rfl⟩
    exact SavingGraphStore.saved ({} : PersistentStore) (by decide) node listed plain
  others id absent := SavingGraphStore.others ({} : PersistentStore) absent

theorem idOfName_halfStore :
    GraphStore.idOfName halfStore "parent" = .ok 1 ∧ GraphStore.idOfName halfStore "child" = .ok 2 := by
  constructor <;> decide +kernel

theorem addDependencies_exact_halfStore :
    let edges : List (NodeId × NodeId) := [(1, 2), (2, 1), (1, 2), (3, 3)]
    Readable halfStore ∧ missingEnds halfStore edges = ∅ ∧ Faithfully halfStore edges ∧
      (∃ after, addDependencies edges halfStore = (.ok 2, after) ∧ EdgesAdded edges halfStore after) ∧
      addDependencies [(5, 4), (1, 2), (4, 5)] halfStore = (.error (.nodeNotFound 4), halfStore) := by
  intro edges
  have has := hasNodes_halfStore
  have readable : Readable halfStore := by
    refine has.readable fun node listed => ?_
    rcases List.mem_pair.1 listed with rfl | rfl
    · exact idOfName_halfStore.1
    · exact idOfName_halfStore.2
  have present : missingEnds halfStore edges = ∅ := has.missingEnds_eq_empty (by simp [edges, parentNode, childNode])
  have faithful : Faithfully halfStore edges := by
    refine faithfully_of_plain (fun id node read => ?_) edges
    rcases List.mem_pair.1 (has.of_read read).1 with rfl | rfl <;> exact ⟨⟨rfl, rfl⟩, rfl, rfl⟩
  have parentFound : view halfStore 1 = some (parentNode (.ofSet (.singleton 2))) :=
    GraphStore.view_eq_some.2 (has.stored _ List.mem_cons_self)
  have childFound : view halfStore 2 = some childNode :=
    GraphStore.view_eq_some.2 (has.stored _ (List.mem_cons_of_mem _ List.mem_cons_self))
  have pair : (view halfStore).Missing edges [(1, 2), (2, 1)] := by
    have half : ¬(view halfStore).HasEdge (1, 2) := by
      rw [NodeView.hasEdge_iff parentFound childFound]
      decide
    have back : ¬(view halfStore).HasEdge (2, 1) := by
      rw [NodeView.hasEdge_iff childFound parentFound]
      decide
    refine ⟨by decide, fun edge => ?_⟩
    simp only [edges, List.mem_cons, List.not_mem_nil, or_false]
    constructor
    · rintro (rfl | rfl)
      · exact ⟨.inl rfl, by decide, half⟩
      · exact ⟨.inr (.inl rfl), by decide, back⟩
    · rintro ⟨rfl | rfl | rfl | rfl, different, -⟩
      · exact .inl rfl
      · exact .inr rfl
      · exact .inl rfl
      · exact absurd rfl different
  have least : IsLeast (missingEnds halfStore [(5, 4), (1, 2), (4, 5)]) 4 := by
    refine ⟨⟨⟨(5, 4), List.mem_cons_self, by decide, .inr rfl⟩, has.others 4 (by decide)⟩, ?_⟩
    rintro id ⟨⟨edge, listed, -, isEnd⟩, absent⟩
    have unknown := has.not_mem_of_absent absent
    simp only [List.mem_cons, List.not_mem_nil, or_false] at listed
    rcases listed with rfl | rfl | rfl <;> rcases isEnd with rfl | rfl <;> revert unknown <;> decide
  obtain ⟨news, after, missing, ran, added⟩ := (addDependencies_exact readable edges).2 present faithful
  have count : news.length = 2 := missing.length_eq pair fun _ => Iff.rfl
  rw [count] at ran
  exact ⟨readable, present, faithful, ⟨after, ran, added⟩, ((addDependencies_exact readable _).1 4).2 least⟩

open PersistentStore (keyOfId)

def runRecord : Bytes :=
  Json.write (.record [("ID", .natural 1), ("type", .text "library"), ("name", .text "parent"), ("metadata", .text ""),
    ("childData", .text (Base64.encode (Bitmap.runBytes 1 61439 Bitmap.listLimit))), ("parentData", .text "")])

def runStore : PersistentStore := { halfStore with nodes := halfStore.nodes.insert (keyOfId 1) runRecord }

theorem idOfName_runStore (name : String) : GraphStore.idOfName runStore name = GraphStore.idOfName halfStore name := by
  change runStore.idOfName name = halfStore.idOfName name
  rw [PersistentStore.idOfName, PersistentStore.idOfName, runStore]

theorem ofJson_runRecord : Node.ofJson runRecord = .ok (parentNode (.runBitmap 1 61439)) := by
  have children : Bitmap.ofText? (Base64.encode (Bitmap.runBytes 1 61439 Bitmap.listLimit)) =
      some (.runBitmap 1 61439) := by
    rw [Bitmap.ofText?_encode (by decide), Bitmap.decode_run (by decide) (by decide)]
    rfl
  apply (readRecord_write_eq_ok rfl).2
  have fields (data : String) : (Json.valueOf (.record [("ID", .natural 1), ("type", .text "library"),
      ("name", .text "parent"), ("metadata", .text ""), ("childData", .text data),
      ("parentData", .text "")])).fields? Node.fieldNames =
        some [some (Json.integerValue false 1), some (.text "library"), some (.text "parent"), some (.text ""),
          some (.text data), some (.text "")] := rfl
  have id : (Json.integerValue false 1).id? = some 1 := Value.id?_integerValue 1
  unfold Node.ofValue?
  rw [fields]
  simp only [bind, Option.bind, id, Value.text?, Value.optionalText?, children]
  rfl

theorem hasNodes_runStore : HasNodes runStore [parentNode (.runBitmap 1 61439), childNode] where
  stored node listed := by
    rcases List.mem_pair.1 listed with rfl | rfl
    · have found : runStore.nodes[keyOfId 1]? = some runRecord := Std.TreeMap.getElem?_insert_self
      change runStore.node 1 = _
      rw [PersistentStore.node, found]
      exact ofJson_runRecord
    · have same : runStore.nodes[keyOfId 2]? = halfStore.nodes[keyOfId 2]? := by
        rw [runStore, Std.TreeMap.getElem?_insert, if_neg (by decide)]
      change runStore.node 2 = _
      rw [PersistentStore.node, same]
      exact hasNodes_halfStore.stored childNode (List.mem_cons_of_mem _ List.mem_cons_self)
  others id absent := by
    have absent : id ∉ [1, 2] := absent
    have different : id ≠ 1 := fun equal => absent (equal ▸ List.mem_cons_self)
    have same : runStore.nodes[keyOfId id]? = halfStore.nodes[keyOfId id]? := by
      rw [runStore, Std.TreeMap.getElem?_insert, if_neg fun equal => ?_]
      exact different (PersistentStore.keyOfId_inj 1 id (Std.compare_eq_iff_eq.1 equal)).symm
    change runStore.node id = _
    rw [PersistentStore.node, same]
    exact hasNodes_halfStore.others id absent

/-- Adding an edge to a node whose children were read from one run counts the edge, and leaves the node unreadable. -/
theorem addDependencies_runStore :
    Readable runStore ∧ missingEnds runStore [(1, 2)] = ∅ ∧
      (∃ after, addDependencies [(1, 2)] runStore = (.ok 1, after) ∧ ∀ node, GraphStore.node after 1 ≠ .ok node) ∧
      ¬∃ news after, (view runStore).Missing [(1, 2)] news ∧
        addDependencies [(1, 2)] runStore = (.ok news.length, after) ∧ EdgesAdded [(1, 2)] runStore after := by
  have has := hasNodes_runStore
  have readable : Readable runStore := by
    refine has.readable fun node listed => ?_
    rw [idOfName_runStore]
    rcases List.mem_pair.1 listed with rfl | rfl
    · exact idOfName_halfStore.1
    · exact idOfName_halfStore.2
  have present : missingEnds runStore [(1, 2)] = ∅ := has.missingEnds_eq_empty (by simp [parentNode, childNode])
  have parentRead : GraphStore.node runStore 1 = .ok (parentNode (.runBitmap 1 61439)) :=
    has.stored (parentNode (.runBitmap 1 61439)) List.mem_cons_self
  have childRead : GraphStore.node runStore 2 = .ok childNode :=
    has.stored childNode (List.mem_cons_of_mem _ List.mem_cons_self)
  have absent : ¬(view runStore).HasEdge (1, 2) := by
    rw [NodeView.hasEdge_iff (GraphStore.view_eq_some.2 parentRead) (GraphStore.view_eq_some.2 childRead)]
    exact fun both => IdSet.not_mem_empty 1 both.2
  have single : (view runStore).Missing [(1, 2)] [(1, 2)] := by
    refine ⟨List.nodup_singleton _, fun edge => (and_iff_left_of_imp fun listed => ?_).symm⟩
    obtain rfl := List.mem_singleton.1 listed
    exact ⟨by decide, absent⟩
  obtain ⟨news, nodes, missing, rewrites, ran⟩ := readable.addDependencies_eq present
  have count : news.length = 1 := missing.length_eq single fun _ => Iff.rfl
  have unreadable : ∀ node, GraphStore.node (GraphStore.saveNodes nodes runStore) 1 ≠ .ok node := by
    obtain ⟨node, listed, own⟩ := List.mem_map.1
      ((rewrites.ends 1).2 ⟨(1, 2), List.mem_singleton.2 rfl, by decide, absent, .inl rfl⟩)
    have withEdge := rewrites.withEdges node listed
    have children : node.children = (Bitmap.runBitmap 1 61439).insert 2 := by
      rw [own] at withEdge
      change NodeView.addEdge (view runStore) (1, 2) 1 = some node at withEdge
      rw [NodeView.addEdge, if_neg (by decide)] at withEdge
      dsimp only at withEdge
      rw [if_pos rfl, GraphStore.view_eq_some.2 parentRead] at withEdge
      rw [← Option.some.inj withEdge]
      rw [parentNode]
    -- Reading takes the list of the children for a bit field, with another number of ids.
    have unreadable := @Bitmap.decode_insert_run 1 61439 (by decide) (by decide) (by decide) 2 (by decide)
    rw [← children] at unreadable
    intro other
    rw [← own]
    exact (PersistentStore.node_saveNodes runStore rewrites.once listed).trans_ne (Node.ofJson_toJson_ne_ok unreadable)
  rw [count] at ran
  refine ⟨readable, present, ⟨_, ran, unreadable⟩, ?_⟩
  rintro ⟨others, after, -, otherRan, added⟩
  obtain ⟨now, read, -⟩ := added.nodes 1 _ parentRead
  obtain ⟨-, rfl⟩ := Prod.mk.inj (ran.symm.trans otherRan)
  exact unreadable now read

end Engine

end SupplyGraph
