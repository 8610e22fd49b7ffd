import SupplyGraph.Proofs.Engine.Runs
import SupplyGraph.Proofs.Query.Source
import Mathlib.Data.Option.Basic

/-!
The answer to a query is what its expression means in the graph, whichever way the closures are read, and its failure
is that of the first leaf that is about no node.
-/

namespace SupplyGraph.Query

open LawfulGraphStore (Holds)

variable {σ : Type} [GraphStore σ] [LawfulGraphStore σ] {store : σ} {contents : MemoryStore} {generated : Nat}

/-- The leaf has a name, its own or the caller's, and it is the name of a node. -/
def Leaf.Named (view : NodeView) (fallback : Option String) (leaf : Leaf) : Prop :=
  ∃ id node, view id = some node ∧ leaf.nameOr fallback = some node.name

/-- The nodes of the type of the leaf that can be reached from the node that it is about. -/
def Leaf.selects (view : NodeView) (fallback : Option String) (leaf : Leaf) : Set NodeId :=
  { id | ∃ start named node, view start = some named ∧ leaf.nameOr fallback = some named.name ∧
    view.Reaches leaf.relation.direction start id ∧ view id = some node ∧ node.type = leaf.nodeType }

def Leaf.failure (fallback : Option String) (leaf : Leaf) : Failure :=
  match leaf.nameOr fallback with
  | none => .invalidQuery s!"no node name for '{leaf.render}' and no default given"
  | some name => .nameNotFound name

theorem Expr.denote_congr {meaning other : Leaf → Set NodeId} (same : ∀ leaf, meaning leaf = other leaf)
    (expr : Expr) :
    expr.denote meaning = expr.denote other := by
  rw [funext same]

theorem Expr.denote_subset {meaning : Leaf → Set NodeId} {bound : Set NodeId} (within : ∀ leaf, meaning leaf ⊆ bound)
    (expr : Expr) : expr.denote meaning ⊆ bound := by
  induction expr with
  | leaf query => exact within query
  | group bracket inner ih => exact ih
  | binary operator left right leftIh rightIh =>
      cases operator with
      | and => exact fun id member => leftIh member.1
      | or => exact Set.union_subset leftIh rightIh
      | xor => exact fun id member => member.elim (fun first => leftIh first.1) fun second => rightIh second.1

section

variable {source : NodeSource} {fallback : Option String} {leaf : Leaf} {id : NodeId}

theorem resolve_eq_ok (consistent : Engine.Consistent generated contents) (names : source.resolve = contents.idOfName) :
    leaf.resolve source fallback = .ok id ↔
      ∃ node, contents.nodes[id]? = some node ∧ leaf.nameOr fallback = some node.name := by
  rw [Leaf.resolve_eq_ok, names]
  constructor
  · rintro ⟨name, wanted, found⟩
    obtain ⟨node, stored, rfl⟩ := consistent.named name id (MemoryStore.idOfName_eq_ok.1 found)
    exact ⟨node, stored, wanted⟩
  · rintro ⟨node, stored, wanted⟩
    exact ⟨node.name, wanted, MemoryStore.idOfName_eq_ok.2 (consistent.indexed id node stored).2⟩

theorem named_iff (consistent : Engine.Consistent generated contents) (names : source.resolve = contents.idOfName) :
    leaf.Named (contents.nodes[·]?) fallback ↔ ∃ id, leaf.resolve source fallback = .ok id := by
  simp only [Leaf.Named, resolve_eq_ok consistent names]

theorem resolve_error (consistent : Engine.Consistent generated contents) (names : source.resolve = contents.idOfName)
    (unnamed : ¬leaf.Named (contents.nodes[·]?) fallback) :
    leaf.resolve source fallback = .error (leaf.failure fallback) := by
  cases wanted : leaf.nameOr fallback with
  | none =>
      unfold Leaf.resolve Leaf.requireName Leaf.failure
      rw [wanted]
      rfl
  | some name =>
      have unknown : contents.names[name]? = none := by
        rw [Option.eq_none_iff_forall_ne_some]
        intro id found
        obtain ⟨node, stored, rfl⟩ := consistent.named name id found
        exact unnamed ⟨id, node, stored, wanted⟩
      have failed : contents.idOfName name = .error (.nameNotFound name) := by rw [MemoryStore.idOfName, unknown]
      unfold Leaf.resolve Leaf.requireName Leaf.failure
      rw [wanted, names]
      exact failed

theorem meaning_eq (consistent : Engine.Consistent generated contents) (names : source.resolve = contents.idOfName)
    (fallback : Option String) (leaf : Leaf) :
    leaf.meaning source fallback (fun direction => direction.Reaches contents.nodes) (HasType contents) =
      leaf.selects (contents.nodes[·]?) fallback := by
  ext id
  simp only [Leaf.meaning, Leaf.selects, HasType, Set.mem_ofPred_eq, resolve_eq_ok consistent names,
    consistent.reaches_eq]
  constructor
  · rintro ⟨start, ⟨named, stored, wanted⟩, path, node, found, isType⟩
    exact ⟨start, named, node, stored, wanted, path, found, isType⟩
  · rintro ⟨start, named, node, stored, wanted, path, found, isType⟩
    exact ⟨start, ⟨named, stored, wanted⟩, path, node, found, isType⟩

end

theorem sortedById_nodeTable (consistent : Engine.Consistent generated contents) {ids : IdSet}
    (stored : ∀ id ∈ ids, id ∈ contents.nodes) :
    (sortedById (contents.nodeTable ids.toList)).map some = ids.toList.map (contents.nodes[·]?) := by
  let table := contents.nodeTable ids.toList
  have lookups (id : NodeId) : table[id]? = if id ∈ ids then contents.nodes[id]? else none :=
    MemoryStore.getElem?_nodeTable contents ids.toList id
  have listed : table.keys = ids.toList := by
    refine keys_eq_toList fun id => ?_
    rw [Std.TreeMap.mem_iff_isSome_getElem?, lookups]
    split
    · rename_i member
      exact iff_of_true (Std.TreeMap.mem_iff_isSome_getElem?.1 (stored id member)) member
    · rename_i outside
      exact iff_of_false (by simp) outside
  have entry {id : NodeId} {node : Node} (member : (id, node) ∈ table.toList) : contents.nodes[id]? = some node := by
    have found := Std.TreeMap.mem_toList_iff_getElem?_eq_some.1 member
    rw [lookups] at found
    split at found
    · exact found
    · cases found
  have inOrder : sortedById table = table.values := by
    refine sortedById_eq_values fun id node found => ?_
    exact (consistent.indexed id node (entry (Std.TreeMap.mem_toList_iff_getElem?_eq_some.2 found))).1
  calc (sortedById table).map some
      = table.toList.map fun entry => some entry.2 := by rw [inOrder, values_eq_map_toList, List.map_map]; rfl
    _ = table.toList.map fun entry => contents.nodes[entry.1]? := List.map_congr_left fun _ member => (entry member).symm
    _ = table.keys.map (contents.nodes[·]?) := by rw [← Std.TreeMap.map_fst_toList_eq_keys, List.map_map]; rfl
    _ = ids.toList.map (contents.nodes[·]?) := by rw [listed]

theorem neighbours_congr (holds : Holds store contents) : neighbours store = neighbours contents := by
  funext direction ids
  simp only [neighbours, Engine.nodes_congr holds]

theorem liveSource_congr (holds : Holds store contents) (coherent : Bool) :
    liveSource coherent store = liveSource coherent contents := by
  have resolve : GraphStore.idOfName store = GraphStore.idOfName contents := funext (LawfulGraphStore.idOfName holds)
  have tables (ids : List NodeId) : GraphStore.closureTable store ids = GraphStore.closureTable contents ids :=
    LawfulGraphStore.closureTable holds ids
  have reading : readClosures store = readClosures contents := by
    funext direction ids
    simp only [readClosures, tables]
  have searching : searchClosures store = searchClosures contents := by
    funext direction ids
    simp only [searchClosures, searchClosure, neighbours_congr holds]
  simp only [liveSource, resolve, reading, searching, Engine.nodes_congr holds]

theorem load_congr (holds : Holds store contents) : Snapshot.load store = Snapshot.load contents := by
  have listed : GraphStore.nodeIds store = GraphStore.nodeIds contents := LawfulGraphStore.nodeIds holds
  have tables (ids : List NodeId) : GraphStore.closureTable store ids = GraphStore.closureTable contents ids :=
    LawfulGraphStore.closureTable holds ids
  simp only [Snapshot.load, listed, Engine.nodes_congr holds, tables]

theorem query_congr (holds : Holds store contents) (script : String) (fallback : Option String) :
    Engine.query script fallback store = Engine.query script fallback contents := by
  simp only [Engine.query, Engine.isCoherent_congr holds, liveSource_congr holds, Engine.nodes_congr holds]

section

variable {script : String} {expr : Expr} {fallback : Option String}

theorem evaluateScript_eq (parsed : parseScript script = .ok expr) (source : NodeSource) :
    evaluateScript source script fallback = expr.evaluate source fallback := by
  unfold evaluateScript readScript
  rw [parsed]
  rfl

theorem query_ok (reachable : Engine.Reachable generated store) (few : generated < UInt32.size)
    (parsed : parseScript script = .ok expr)
    (named : ∀ leaf ∈ expr.leaves, leaf.Named (GraphStore.view store) fallback) :
    ∃ answer, Engine.query script fallback store = .ok answer ∧
      (∀ id, id ∈ answer.ids ↔ id ∈ expr.denote (Leaf.selects (GraphStore.view store) fallback)) ∧
      answer.nodes.map some = answer.ids.toList.map (GraphStore.view store) := by
  obtain ⟨contents, described, holds⟩ := reachable.described few
  have consistent := described.consistent few
  rw [Engine.view_eq holds] at named ⊢
  let source := liveSource contents.worklist.isEmpty contents
  have answers := liveSource_answers consistent fun idle => described.coherent few (List.isEmpty_iff.1 idle)
  obtain ⟨ids, evaluated, exact⟩ := evaluate_exact answers
    fun leaf member => (named_iff consistent rfl).1 (named leaf member)
  rw [Expr.denote_congr (meaning_eq consistent rfl fallback)] at exact
  have within (leaf : Leaf) : leaf.selects (contents.nodes[·]?) fallback ⊆ { id | (contents.nodes[id]?).isSome } := by
    rintro id ⟨_, _, node, _, _, _, found, _⟩
    exact Option.isSome_iff_exists.2 ⟨node, found⟩
  have stored : ∀ id ∈ ids, id ∈ contents.nodes := fun id member =>
    Std.TreeMap.mem_iff_isSome_getElem?.2 (Expr.denote_subset within expr ((exact id).1 member))
  refine ⟨{ ids, nodes := sortedById (contents.nodeTable ids.toList) }, ?_, exact, sortedById_nodeTable consistent stored⟩
  rw [query_congr holds]
  have run : evaluateScript source script fallback = .ok ids := (evaluateScript_eq parsed source).trans evaluated
  change (do
    let ids ← evaluateScript source script fallback
    return { ids, nodes := sortedById (← GraphStore.nodes contents ids.toList) } : Outcome QueryAnswer) = _
  rw [run]
  rfl

theorem query_error (reachable : Engine.Reachable generated store) (few : generated < UInt32.size)
    (parsed : parseScript script = .ok expr) {before after : List Leaf} {leaf : Leaf}
    (leaves : expr.leaves = before ++ leaf :: after)
    (named : ∀ earlier ∈ before, earlier.Named (GraphStore.view store) fallback)
    (unnamed : ¬leaf.Named (GraphStore.view store) fallback) :
    Engine.query script fallback store = .error (leaf.failure fallback) := by
  obtain ⟨contents, described, holds⟩ := reachable.described few
  have consistent := described.consistent few
  rw [Engine.view_eq holds] at named unnamed
  let source := liveSource contents.worklist.isEmpty contents
  have failed : expr.evaluate source fallback = .error (leaf.failure fallback) :=
    evaluate_error leaves (fun earlier member => (named_iff consistent rfl).1 (named earlier member))
      (resolve_error consistent rfl unnamed)
  rw [query_congr holds]
  change (do
    let ids ← evaluateScript source script fallback
    return { ids, nodes := sortedById (← GraphStore.nodes contents ids.toList) } : Outcome QueryAnswer) = _
  rw [evaluateScript_eq parsed, failed]
  rfl

open Classical in
theorem named_or_first (view : NodeView) (fallback : Option String) (leaves : List Leaf) :
    (∀ leaf ∈ leaves, leaf.Named view fallback) ∨ ∃ before leaf after, leaves = before ++ leaf :: after ∧
      (∀ earlier ∈ before, earlier.Named view fallback) ∧ ¬leaf.Named view fallback := by
  cases found : leaves.find? fun leaf => decide (¬leaf.Named view fallback) with
  | none => exact Or.inl (by simpa using List.find?_eq_none.1 found)
  | some leaf =>
      obtain ⟨unnamed, before, after, split, named⟩ := List.find?_eq_some_iff_append.1 found
      exact Or.inr ⟨before, leaf, after, split, by simpa using named, by simpa using unnamed⟩

theorem query_ids_of_unnamed (reachable : Engine.Reachable generated store) (few : generated < UInt32.size) {ids : Nat}
    (consistent : Engine.Consistent ids contents) (holds : Holds store contents) {source : NodeSource}
    (names : source.resolve = contents.idOfName) (parsed : parseScript script = .ok expr)
    (unnamed : ¬∀ leaf ∈ expr.leaves, leaf.Named (contents.nodes[·]?) fallback) :
    (Engine.query script fallback store).map (·.ids) = evaluateScript source script fallback := by
  have view := Engine.view_eq holds
  rcases named_or_first (contents.nodes[·]?) fallback expr.leaves with named | ⟨before, leaf, after, split, named, first⟩
  · exact absurd named unnamed
  · rw [query_error reachable few parsed split (view ▸ named) (view ▸ first), evaluateScript_eq parsed]
    exact (evaluate_error split (fun earlier member => (named_iff consistent names).1 (named earlier member))
      (resolve_error consistent names first)).symm

theorem query_ids (reachable : Engine.Reachable generated store) (few : generated < UInt32.size) {ids : Nat}
    (consistent : Engine.Consistent ids contents) (holds : Holds store contents) {source : NodeSource}
    (names : source.resolve = contents.idOfName)
    (answers : source.Answers (· ∈ contents.nodes) (fun direction => direction.Reaches contents.nodes)
      (HasType contents)) (parsed : parseScript script = .ok expr) (fallback : Option String) :
    (Engine.query script fallback store).map (·.ids) = evaluateScript source script fallback := by
  by_cases named : ∀ leaf ∈ expr.leaves, leaf.Named (contents.nodes[·]?) fallback
  · have view := Engine.view_eq holds
    obtain ⟨answer, ran, members, -⟩ := query_ok reachable few parsed (view ▸ named)
    rw [view] at members
    obtain ⟨ids, evaluated, exact⟩ := evaluate_exact answers fun leaf member =>
      (named_iff consistent names).1 (named leaf member)
    rw [Expr.denote_congr (meaning_eq consistent names fallback)] at exact
    have same : answer.ids = ids := IdSet.ext fun id => (members id).trans (exact id).symm
    rw [ran, evaluateScript_eq parsed, evaluated, ← same]
    rfl
  · exact query_ids_of_unnamed reachable few consistent holds names parsed named

theorem query_eq_of_view {more : Nat} {other : σ} (reachable : Engine.Reachable generated store)
    (few : generated < UInt32.size) (otherReachable : Engine.Reachable more other) (otherFew : more < UInt32.size)
    (same : GraphStore.view other = GraphStore.view store) (parsed : parseScript script = .ok expr) :
    Engine.query script fallback other = Engine.query script fallback store := by
  rcases named_or_first (GraphStore.view store) fallback expr.leaves with
    named | ⟨before, leaf, after, split, named, unnamed⟩
  · obtain ⟨⟨ids, nodes⟩, ran, members, listed⟩ := query_ok reachable few parsed named
    obtain ⟨⟨otherIds, otherNodes⟩, otherRan, otherMembers, otherListed⟩ :=
      query_ok otherReachable otherFew parsed (same ▸ named)
    rw [same] at otherMembers otherListed
    obtain rfl : otherIds = ids := IdSet.ext fun id => (otherMembers id).trans (members id).symm
    obtain rfl : otherNodes = nodes :=
      List.map_injective_iff.2 (Option.some_injective Node) (otherListed.trans listed.symm)
    rw [otherRan, ran]
  · rw [query_error reachable few parsed split named unnamed,
      query_error otherReachable otherFew parsed split (same ▸ named) (same ▸ unnamed)]

def pairLeaf : Leaf := { relation := .dependencies, nodeType := "library", nodeName := some "parent" }

end

end SupplyGraph.Query
