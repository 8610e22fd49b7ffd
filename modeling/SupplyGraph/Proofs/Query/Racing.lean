import SupplyGraph.Proofs.Engine.Lag
import SupplyGraph.Proofs.Query.Answers

/-!
Queries that race with writers. A source is made on one store, which fixes whether it reads the stored closures, and
answers from the store of a later moment. An answer about a single leaf is that of one moment in between, or it is
empty because its node was made meanwhile.
-/

namespace SupplyGraph.Query

open Engine (run idsOfRun Operation Consistent Behind Lags)
open LawfulGraphStore (Holds)

variable {σ : Type} [GraphStore σ] {store : σ} {operations : List Operation} {fallback : Option String} {leaf : Leaf}

/-- The leaf is about a node that was made since the last time that the worklist was empty. -/
def Leaf.Recent (operations : List Operation) (store : σ) (fallback : Option String) (leaf : Leaf) : Prop :=
  ∃ name id, leaf.nameOr fallback = some name ∧ GraphStore.idOfName (run operations store) name = .ok id ∧
    ∀ earlier, earlier <+: operations → isCoherent (run earlier store) = .ok true →
      ∀ id, GraphStore.idOfName (run earlier store) name ≠ .ok id

theorem Expr.leaves_ne_nil (expr : Expr) : expr.leaves ≠ [] := by
  induction expr with
  | leaf query => exact List.cons_ne_nil query []
  | group bracket inner ih => exact ih
  | binary operator left right leftIh rightIh => exact List.append_ne_nil_of_left_ne_nil leftIh right.leaves

theorem Expr.denote_of_leaves_eq {expr : Expr} (single : expr.leaves = [leaf]) (meaning : Leaf → Set NodeId) :
    expr.denote meaning = meaning leaf := by
  induction expr with
  | leaf query =>
      obtain rfl := List.head_eq_of_cons_eq single
      rfl
  | group bracket inner ih => exact ih single
  | binary operator left right leftIh rightIh =>
      rcases List.append_eq_singleton_iff.1 single with ⟨none, -⟩ | ⟨-, none⟩
      · exact absurd none left.leaves_ne_nil
      · exact absurd none right.leaves_ne_nil

variable {past now : MemoryStore} {generated ids : Nat} {id : NodeId}

theorem mem_of_reaches {nodes : NodeTable} {direction : Direction} {other : NodeId}
    (present : id ∈ nodes) (path : direction.Reaches nodes id other) : other ∈ nodes := by
  induction path with
  | refl => exact present
  | tail _ edge _ =>
      obtain ⟨_, _, _, stored⟩ := edge
      exact stored

theorem hasType_congr (grows : Engine.Grows past now) (present : id ∈ past.nodes) (type : String) :
    HasType now id type ↔ HasType past id type := by
  obtain ⟨node, found⟩ := getElem?_of_mem present
  obtain ⟨later, foundLater, kept⟩ := grows.nodes id node found
  simp only [HasType, found, foundLater, Option.some.injEq, exists_eq_left', kept.type]

theorem resolve_past (grows : Engine.Grows past now) (consistentPast : Consistent ids past)
    (consistent : Consistent generated now) (old : id ∈ past.nodes) :
    leaf.resolve (liveSource true now) fallback = .ok id ↔ leaf.resolve (liveSource true past) fallback = .ok id := by
  obtain ⟨node, found⟩ := getElem?_of_mem old
  obtain ⟨later, foundLater, kept⟩ := grows.nodes id node found
  have names (store : MemoryStore) : (liveSource true store).resolve = store.idOfName := rfl
  rw [resolve_eq_ok consistent (names now), resolve_eq_ok consistentPast (names past)]
  simp only [found, foundLater, Option.some.injEq, exists_eq_left', kept.name]

theorem lagging_answers (lags : Lags past now) (consistent : Consistent generated now) :
    (liveSource true now).Answers (· ∈ now.nodes)
      (fun direction id other => id ∈ past.nodes ∧ direction.Reaches past.nodes id other) (HasType now) := by
  refine liveSource_answers_of_closures consistent fun direction ids nodup present => ?_
  refine readClosures_exact nodup fun id member => ?_
  by_cases old : id ∈ past.nodes
  · obtain ⟨⟨closures, found, exact⟩, same⟩ := lags.stored id old
    refine ⟨closures, same.trans found, fun other => ?_⟩
    rw [exact, and_iff_right old]
  · refine ⟨{ id }, lags.made id (present id member) old, fun other => iff_of_false ?_ fun both => old both.1⟩
    cases direction <;> exact IdSet.not_mem_empty other

theorem lagging_meaning (lags : Lags past now) (consistentPast : Consistent ids past)
    (consistent : Consistent generated now) (leaf : Leaf) :
    leaf.meaning (liveSource true now) fallback
        (fun direction id other => id ∈ past.nodes ∧ direction.Reaches past.nodes id other) (HasType now) =
      leaf.selects (past.nodes[·]?) fallback := by
  have names : (liveSource true past).resolve = past.idOfName := rfl
  rw [← meaning_eq consistentPast names]
  ext other
  constructor
  · rintro ⟨start, isStart, ⟨old, path⟩, isType⟩
    refine ⟨start, (resolve_past lags.grows consistentPast consistent old).1 isStart, path, ?_⟩
    exact (hasType_congr lags.grows (mem_of_reaches old path) leaf.nodeType).1 isType
  · rintro ⟨start, isStart, path, isType⟩
    obtain ⟨node, found, -⟩ := (resolve_eq_ok consistentPast rfl).1 isStart
    have old : start ∈ past.nodes := mem_of_getElem? found
    refine ⟨start, (resolve_past lags.grows consistentPast consistent old).2 isStart, ⟨old, path⟩, ?_⟩
    exact (hasType_congr lags.grows (mem_of_reaches old path) leaf.nodeType).2 isType

theorem selects_eq_empty {view : NodeView} (unnamed : ¬leaf.Named view fallback) :
    leaf.selects view fallback = ∅ := by
  refine Set.eq_empty_of_forall_notMem ?_
  rintro other ⟨start, named, _, found, wanted, _⟩
  exact unnamed ⟨start, named, found, wanted⟩

section

variable [LawfulGraphStore σ] {script : String} {expr : Expr}

theorem recent_iff (behind : Behind operations store past now) (consistentPast : Consistent ids past)
    (consistent : Consistent generated now) (holds : Holds (run operations store) now) :
    leaf.Recent operations store fallback ↔
      leaf.Named (now.nodes[·]?) fallback ∧ ¬leaf.Named (past.nodes[·]?) fallback := by
  constructor
  · rintro ⟨name, id, wanted, found, unseen⟩
    obtain ⟨node, stored, rfl⟩ := consistent.named name id ((Engine.idOfName_eq_ok holds).1 found)
    refine ⟨⟨id, node, stored, wanted⟩, ?_⟩
    rintro ⟨other, named, storedPast, wantedPast⟩
    obtain ⟨earlier, isPrefix, holdsEarlier⟩ := behind.state
    have idle : isCoherent (run earlier store) = .ok true := by
      rw [Engine.isCoherent_eq holdsEarlier, behind.lags.idle]
      rfl
    refine unseen earlier isPrefix idle other ((Engine.idOfName_eq_ok holdsEarlier).2 ?_)
    rw [Option.some.inj (wanted.symm.trans wantedPast)]
    exact (consistentPast.indexed other named storedPast).2
  · rintro ⟨⟨id, node, stored, wanted⟩, unnamed⟩
    have indexed := (consistent.indexed id node stored).2
    refine ⟨node.name, id, wanted, (Engine.idOfName_eq_ok holds).2 indexed, ?_⟩
    intro earlier isPrefix idle other known
    obtain ⟨before, storedPast, same⟩ :=
      consistentPast.named node.name other (behind.seen earlier isPrefix idle node.name other known)
    exact unnamed ⟨other, before, storedPast, wanted.trans (congrArg some same.symm)⟩

theorem lagging_evaluate (lags : Lags past now) (consistentPast : Consistent ids past)
    (consistent : Consistent generated now) (single : expr.leaves = [leaf])
    (named : leaf.Named (now.nodes[·]?) fallback) :
    ∃ answer, expr.evaluate (liveSource true now) fallback = .ok answer ∧
      ∀ id, id ∈ answer ↔ id ∈ leaf.selects (past.nodes[·]?) fallback := by
  have resolves : ∀ other ∈ expr.leaves, ∃ id, other.resolve (liveSource true now) fallback = .ok id := by
    rw [single]
    intro other member
    obtain rfl := List.mem_singleton.1 member
    exact (named_iff consistent rfl).1 named
  obtain ⟨answer, evaluated, members⟩ := evaluate_exact (lagging_answers lags consistent) resolves
  rw [Expr.denote_of_leaves_eq single, lagging_meaning lags consistentPast consistent] at members
  exact ⟨answer, evaluated, members⟩

theorem query_of_leaves_eq (reachable : Engine.Reachable generated store) (few : generated < UInt32.size)
    (holds : Holds store past) (parsed : parseScript script = .ok expr) (single : expr.leaves = [leaf])
    (named : leaf.Named (past.nodes[·]?) fallback) :
    ∃ answer, Engine.query script fallback store = .ok answer ∧
      ∀ id, id ∈ answer.ids ↔ id ∈ leaf.selects (past.nodes[·]?) fallback := by
  rw [← Engine.view_eq holds] at named ⊢
  have allNamed : ∀ other ∈ expr.leaves, other.Named (GraphStore.view store) fallback := by
    rw [single]
    intro other member
    obtain rfl := List.mem_singleton.1 member
    exact named
  obtain ⟨answer, ran, members, -⟩ := query_ok reachable few parsed allNamed
  rw [Expr.denote_of_leaves_eq single] at members
  exact ⟨answer, ran, members⟩

theorem lagging_evaluate_unknown (lags : Lags past now) (consistentPast : Consistent ids past)
    (consistent : Consistent generated now) (single : expr.leaves = [leaf])
    (named : leaf.Named (now.nodes[·]?) fallback) (unnamed : ¬leaf.Named (past.nodes[·]?) fallback) :
    expr.evaluate (liveSource true now) fallback = .ok ∅ := by
  obtain ⟨answer, evaluated, members⟩ := lagging_evaluate lags consistentPast consistent single named
  rw [selects_eq_empty unnamed] at members
  rw [evaluated]
  exact congrArg Except.ok (IdSet.ext fun id =>
    iff_of_false (fun member => (members id).1 member) (IdSet.not_mem_empty id))

theorem lagging_evaluate_known (reachable : Engine.Reachable generated store)
    (few : generated + idsOfRun operations store < UInt32.size) (behind : Behind operations store past now)
    {later : Nat} (consistent : Consistent later now) (parsed : parseScript script = .ok expr)
    (single : expr.leaves = [leaf]) (named : leaf.Named (now.nodes[·]?) fallback)
    (namedPast : leaf.Named (past.nodes[·]?) fallback) :
    ∃ earlier, earlier <+: operations ∧ expr.evaluate (liveSource true now) fallback =
      (Engine.query script fallback (run earlier store)).map (·.ids) := by
  obtain ⟨ids, consistentPast⟩ := behind.consistent
  obtain ⟨answer, evaluated, members⟩ := lagging_evaluate behind.lags consistentPast consistent single named
  obtain ⟨earlier, isPrefix, holdsPast⟩ := behind.state
  have fewer : generated + idsOfRun earlier store < UInt32.size := by
    obtain ⟨rest, rfl⟩ := isPrefix
    rw [Engine.idsOfRun_append] at few
    omega
  obtain ⟨found, ran, exact⟩ := query_of_leaves_eq (reachable.run earlier) fewer holdsPast parsed single namedPast
  refine ⟨earlier, isPrefix, ?_⟩
  rw [evaluated, ran]
  exact congrArg Except.ok (IdSet.ext fun id => (members id).trans (exact id).symm)

/-- A source answers about a single leaf what a query gives at one moment since it was made, or nothing about a node
that was made since the last time that the worklist was empty. -/
theorem racing_query (reachable : Engine.Reachable generated store)
    (few : generated + idsOfRun operations store < UInt32.size - 1) (keeps : .clear ∉ operations) {coherent : Bool}
    (made : isCoherent store = .ok coherent) (parsed : parseScript script = .ok expr) (single : expr.leaves = [leaf])
    (fallback : Option String) :
    (coherent = true ∧ leaf.Recent operations store fallback →
      evaluateScript (liveSource coherent (run operations store)) script fallback = .ok ∅) ∧
    (¬(coherent = true ∧ leaf.Recent operations store fallback) → ∃ earlier, earlier <+: operations ∧
      evaluateScript (liveSource coherent (run operations store)) script fallback =
        (Engine.query script fallback (run earlier store)).map (·.ids)) := by
  have reachableLater := reachable.run operations
  cases coherent with
  | false =>
      refine ⟨fun impossible => (nomatch impossible.1), fun _ => ⟨operations, List.prefix_rfl, ?_⟩⟩
      obtain ⟨now, described, holds⟩ := reachableLater.described (by omega)
      have consistent := described.consistent (by omega)
      have answers : (liveSource false now).Answers _ _ _ :=
        liveSource_answers consistent fun idle => absurd idle Bool.false_ne_true
      rw [liveSource_congr holds, query_ids reachableLater (by omega) consistent holds rfl answers parsed]
  | true =>
      obtain ⟨contents, described, holds⟩ := reachable.described (by omega)
      have idle : contents.worklist = [] :=
        List.isEmpty_iff.1 (Except.ok.inj ((Engine.isCoherent_eq holds).symm.trans made))
      obtain ⟨past, now, consistent, holdsNow, behind⟩ := (described.consistent (by omega)).behind holds
        (described.coherent (by omega)) idle operations keeps (by omega)
      obtain ⟨ids, consistentPast⟩ := behind.consistent
      rw [liveSource_congr holdsNow, recent_iff behind consistentPast consistent holdsNow]
      by_cases named : leaf.Named (now.nodes[·]?) fallback
      · rw [evaluateScript_eq parsed]
        refine ⟨fun ⟨_, _, unnamed⟩ => ?_, fun notRecent => ?_⟩
        · exact lagging_evaluate_unknown behind.lags consistentPast consistent single named unnamed
        · have namedPast : leaf.Named (past.nodes[·]?) fallback := by
            by_contra unnamed
            exact notRecent ⟨rfl, named, unnamed⟩
          exact lagging_evaluate_known reachable (by omega) behind consistent parsed single named namedPast
      · have unnamed : ¬∀ other ∈ expr.leaves, other.Named (now.nodes[·]?) fallback := by
          rw [single]
          exact fun all => named (all leaf (List.mem_singleton_self leaf))
        refine ⟨fun recent => absurd recent.2.1 named, fun _ => ⟨operations, List.prefix_rfl, ?_⟩⟩
        exact (query_ids_of_unnamed reachableLater (by omega) consistent holdsNow rfl parsed unnamed).symm

theorem racing_query_refreshedPair :
    let operations : List Operation := [.addNode { type := "library", name := "other" }, .setDependency 1 3]
    Engine.Reachable 2 Engine.refreshedPair ∧ isCoherent Engine.refreshedPair = .ok true ∧
      ∃ earlier, earlier <+: operations ∧
        evaluateScript (liveSource true (run operations Engine.refreshedPair)) "dependencies library parent" none =
          (Engine.query "dependencies library parent" none (run earlier Engine.refreshedPair)).map (·.ids) := by
  intro operations
  have few : 2 + idsOfRun operations Engine.refreshedPair < UInt32.size - 1 := by decide +kernel
  have keeps : Operation.clear ∉ operations := by simp [operations]
  have made : isCoherent Engine.refreshedPair = .ok true := by decide +kernel
  have parsed : parseScript "dependencies library parent" = .ok (.leaf pairLeaf) := by decide +kernel
  have known : GraphStore.idOfName Engine.refreshedPair "parent" = .ok 1 := by decide +kernel
  refine ⟨Engine.reachable_refreshedPair, made, ?_⟩
  refine (racing_query Engine.reachable_refreshedPair few keeps made parsed rfl none).2 ?_
  rintro ⟨-, name, id, wanted, -, unseen⟩
  obtain rfl := Option.some.inj wanted
  exact unseen [] List.nil_prefix made 1 known

/-- A source that was made on an empty graph finds nothing about a node that is added then, not even the node, which
its closure includes. No query does: before, the node is unknown, and afterwards it depends on itself. -/
theorem racing_query_newNode :
    let operations : List Operation := [.addNode { type := "library", name := "a" }]
    Engine.Reachable 0 ({} : MemoryStore) ∧ isCoherent ({} : MemoryStore) = .ok true ∧
      ¬∃ earlier, earlier <+: operations ∧
        evaluateScript (liveSource true (run operations ({} : MemoryStore))) "dependencies library a" none =
          (Engine.query "dependencies library a" none (run earlier ({} : MemoryStore))).map (·.ids) := by
  intro operations
  have found : (evaluateScript (liveSource true (run operations ({} : MemoryStore))) "dependencies library a" none).map
      (·.toList) = .ok [] := by decide +kernel
  have before : ((Engine.query "dependencies library a" none ({} : MemoryStore)).map (·.ids)).map (·.toList) =
      .error (.nameNotFound "a") := by decide +kernel
  have after : ((Engine.query "dependencies library a" none (run operations ({} : MemoryStore))).map (·.ids)).map
      (·.toList) = .ok [1] := by decide +kernel
  refine ⟨.empty, rfl, ?_⟩
  rintro ⟨earlier, isPrefix, same⟩
  rw [same] at found
  rcases List.prefix_concat_iff.1 (show earlier <+: [] ++ operations from isPrefix) with rfl | isStart
  · cases found.symm.trans after
  · obtain rfl := List.prefix_nil.1 isStart
    cases found.symm.trans before

end

end SupplyGraph.Query
