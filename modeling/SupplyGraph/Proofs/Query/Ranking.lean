import SupplyGraph.Proofs.Query.Pool
import SupplyGraph.Proofs.Query.Snapshot

/-!
Leaderboards against single queries. Every row is the answer to one query, the rows are in strict order, and neither
the order of the nodes nor the threads that the rows are computed by can be told from the result.
-/

namespace SupplyGraph.Query

open LawfulGraphStore (Holds)

namespace LeaderboardEntry

theorem precedes_iff {entry other : LeaderboardEntry} : entry.precedes other = true ↔
    other.output.size < entry.output.size ∨ other.output.size = entry.output.size ∧ entry.node.id ≤ other.node.id := by
  simp [precedes]

theorem precedes_trans (first second third : LeaderboardEntry) (before : first.precedes second = true)
    (after : second.precedes third = true) : first.precedes third = true := by
  rw [precedes_iff, UInt32.le_iff_toNat_le] at *
  omega

theorem precedes_total (entry other : LeaderboardEntry) : (entry.precedes other || other.precedes entry) = true := by
  rw [Bool.or_eq_true, precedes_iff, precedes_iff, UInt32.le_iff_toNat_le, UInt32.le_iff_toNat_le]
  omega

def Above (entry other : LeaderboardEntry) : Prop :=
  other.output.size < entry.output.size ∨ other.output.size = entry.output.size ∧ entry.node.id < other.node.id

end LeaderboardEntry

open LeaderboardEntry (precedes_iff precedes_trans precedes_total Above)

def Distinct (entries : List LeaderboardEntry) : Prop :=
  ∀ entry ∈ entries, ∀ other ∈ entries, entry.node.id = other.node.id → entry = other

theorem mergeSort_eq_of_perm {entries others : List LeaderboardEntry} (distinct : Distinct entries)
    (perm : entries.Perm others) :
    entries.mergeSort LeaderboardEntry.precedes = others.mergeSort LeaderboardEntry.precedes := by
  have sorted (entries : List LeaderboardEntry) := List.pairwise_mergeSort precedes_trans precedes_total entries
  have same : (entries.mergeSort LeaderboardEntry.precedes).Perm (others.mergeSort LeaderboardEntry.precedes) :=
    (List.mergeSort_perm ..).trans (perm.trans (List.mergeSort_perm ..).symm)
  refine same.eq_of_pairwise (fun entry other listed otherListed first second => ?_) (sorted entries) (sorted others)
  rw [precedes_iff, UInt32.le_iff_toNat_le] at first second
  refine distinct entry (List.mem_mergeSort.1 listed) other ?_ (UInt32.toNat.inj (by omega))
  exact perm.mem_iff.2 (List.mem_mergeSort.1 otherListed)

theorem above_mergeSort {entries : List LeaderboardEntry} (distinct : Distinct entries) (nodup : entries.Nodup) :
    (entries.mergeSort LeaderboardEntry.precedes).Pairwise Above := by
  have perm := List.mergeSort_perm entries LeaderboardEntry.precedes
  have sorted := List.pairwise_mergeSort precedes_trans precedes_total entries
  refine (sorted.and (perm.nodup_iff.2 nodup)).imp_of_mem fun {entry other} listed otherListed ⟨before, different⟩ => ?_
  rw [precedes_iff] at before
  refine before.imp_right fun ⟨size, least⟩ => ⟨size, UInt32.lt_of_le_of_ne least fun same => different ?_⟩
  exact distinct entry (perm.mem_iff.1 listed) other (perm.mem_iff.1 otherListed) same

def row (expr : Expr) (source : NodeSource) (node : Node) : Outcome LeaderboardEntry := do
  let output ← expr.evaluate source (some node.name)
  return { node, output }

def candidates (nodes : List Node) : List Node := nodes.filter fun node => !node.name.isEmpty

def ranked (limit : Option Nat) (entries : List LeaderboardEntry) : List LeaderboardEntry :=
  let sorted := entries.mergeSort LeaderboardEntry.precedes
  match limit with
  | some limit => sorted.take limit
  | none => sorted

theorem rankNodes_never (expr : Expr) (source : NodeSource) (nodes : List Node) :
    rankNodes expr source nodes .never =
      ((candidates nodes).mapM (row expr source)).map fun entries => (ranked none entries, .never) := by
  have each (node : Node) : (do
      Polled.poll
      let output ← expr.evaluate source (some node.name)
      return { node, output } : Polled LeaderboardEntry) .never = (row expr source node).map (·, .never) := by
    unfold row
    cases expr.evaluate source (some node.name) <;> rfl
  have entries := Polled.mapM_never each (candidates nodes)
  unfold rankNodes
  rw [Polled.bind_apply, ← candidates, entries]
  cases (candidates nodes).mapM (row expr source) <;> rfl

variable {σ : Type} [GraphStore σ] {store : σ} {script : String} {expr : Expr} {snapshot : Snapshot}

theorem leaderboard_idle (idle : isCoherent store = .ok true) (parsed : parseScript script = .ok expr)
    (loaded : Snapshot.load store = .ok snapshot) (limit : Option Nat) :
    Engine.leaderboard script limit .never store =
      ((candidates snapshot.nodes.values).mapM (row expr snapshot.source)).map (ranked limit) := by
  have read : readScript script = .ok expr := by
    rw [readScript, parsed]
    rfl
  unfold Engine.leaderboard leaderboard
  rw [Polled.run'_lift_bind, idle]
  change (liftM (readScript script) >>= _ : Polled _).run' .never = _
  rw [Polled.run'_lift_bind, read]
  change (liftM (Snapshot.load store) >>= _ : Polled _).run' .never = _
  rw [Polled.run'_lift_bind, loaded]
  change Except.map _ ((rankNodes expr snapshot.source snapshot.nodes.values >>= _ : Polled _) .never) = _
  rw [Polled.bind_apply, rankNodes_never]
  cases (candidates snapshot.nodes.values).mapM (row expr snapshot.source) with
  | error failure => rfl
  | ok entries => cases limit <;> rfl

theorem leaderboard_busy (busy : isCoherent store = .ok false) (limit : Option Nat) (cancellation : Cancellation) :
    Engine.leaderboard script limit cancellation store =
      .error (.precondition "cannot use sorted leaderboards without caching") := by
  unfold Engine.leaderboard leaderboard
  rw [Polled.run'_lift_bind, busy]
  rfl

section

variable {id otherId : NodeId} {node other : Node} {failure : Failure}

def queryRow (store : σ) (script : String) (node : Node) : Outcome LeaderboardEntry :=
  (Engine.query script (some node.name) store).map fun answer => { node, output := answer.ids }

theorem queryRow_eq_ok {entry : LeaderboardEntry} : queryRow store script node = .ok entry ↔
    entry.node = node ∧ (Engine.query script (some node.name) store).map (·.ids) = .ok entry.output := by
  unfold queryRow
  obtain ⟨about, output⟩ := entry
  cases Engine.query script (some node.name) store with
  | error failure => exact iff_of_false nofun fun both => nomatch both.2
  | ok answer =>
      simp only [Except.map, Except.ok.injEq, LeaderboardEntry.mk.injEq, eq_comm (a := node)]

theorem queryRow_eq_error :
    queryRow store script node = .error failure ↔ Engine.query script (some node.name) store = .error failure := by
  rw [queryRow, map_eq_error]

theorem map_node_of_mapM {nodes : List Node} {entries : List LeaderboardEntry}
    (all : nodes.mapM (queryRow store script) = .ok entries) : entries.map (·.node) = nodes := by
  have each := mapM_eq_ok_iff.1 all
  clear all
  induction each with
  | nil => rfl
  | cons found _ ih => rw [List.map_cons, ih, (queryRow_eq_ok.1 found).1]

theorem failed_row {nodes : List Node} (failed : nodes.mapM (queryRow store script) = .error failure) :
    ∃ node ∈ nodes, queryRow store script node = .error failure := by
  obtain ⟨_, _, node, _, split, -, fails⟩ := split_of_mapM_error failed
  exact ⟨node, split ▸ List.mem_append_right _ List.mem_cons_self, fails⟩

theorem row_of_mapM {nodes : List Node} {entries : List LeaderboardEntry}
    (all : nodes.mapM (queryRow store script) = .ok entries) (listed : node ∈ nodes) :
    ∃ entry, queryRow store script node = .ok entry := by
  rw [← map_node_of_mapM all] at listed
  obtain ⟨entry, member, rfl⟩ := List.mem_map.1 listed
  obtain ⟨node, -, found⟩ := (mem_of_mapM all entry).1 member
  obtain ⟨rfl, -⟩ := queryRow_eq_ok.1 found
  exact ⟨entry, found⟩

theorem mem_of_candidates {nodes : List Node} : node ∈ candidates nodes ↔ node ∈ nodes ∧ node.name ≠ "" := by
  simp [candidates]

variable {generated : Nat}

theorem Snapshot.Shows.distinct {contents : MemoryStore} (shows : snapshot.Shows contents)
    (consistent : Engine.Consistent generated contents) {nodes : List Node}
    (listed : ∀ node ∈ nodes, node ∈ snapshot.nodes.values) {entries : List LeaderboardEntry}
    (all : nodes.mapM (queryRow store script) = .ok entries) : Distinct entries := by
  intro entry member other otherMember same
  obtain ⟨node, isListed, found⟩ := (mem_of_mapM all entry).1 member
  obtain ⟨otherNode, otherListed, otherFound⟩ := (mem_of_mapM all other).1 otherMember
  obtain ⟨rfl, -⟩ := queryRow_eq_ok.1 found
  obtain ⟨rfl, -⟩ := queryRow_eq_ok.1 otherFound
  have sameNode := shows.eq_of_id consistent (listed _ isListed) (listed _ otherListed) same
  rw [← sameNode] at otherFound
  exact Except.ok.inj (found.symm.trans otherFound)

variable [LawfulGraphStore σ]

theorem row_eq (reachable : Engine.Reachable generated store) (few : generated < UInt32.size)
    (idle : isCoherent store = .ok true) (parsed : parseScript script = .ok expr)
    (loaded : Snapshot.load store = .ok snapshot) {order : List Node} (perm : order.Perm snapshot.nodes.values) :
    row expr (snapshot.sourceIn order) = queryRow store script := by
  funext node
  unfold row queryRow
  rw [← snapshot_ids reachable few idle loaded perm parsed]
  cases Engine.query script (some node.name) store <;> rfl

def Leaf.NamesUnknown (store : σ) (leaf : Leaf) : Prop :=
  ∃ name, leaf.nodeName = some name ∧ ∀ id, GraphStore.idOfName store name ≠ .ok id

theorem named_iff_known {contents : MemoryStore} (consistent : Engine.Consistent generated contents)
    (holds : Holds store contents) (stored : GraphStore.node store id = .ok node) (leaf : Leaf) :
    leaf.Named (GraphStore.view store) (some node.name) ↔ ¬leaf.NamesUnknown store := by
  cases own : leaf.nodeName with
  | none =>
      refine iff_of_true ⟨id, node, GraphStore.view_eq_some.2 stored, ?_⟩ ?_
      · rw [Leaf.nameOr, own, Option.none_or]
      · rintro ⟨name, named, -⟩
        cases own.symm.trans named
  | some name =>
      have known : ¬leaf.NamesUnknown store ↔ ∃ id, contents.names[name]? = some id := by
        simp only [Leaf.NamesUnknown, own, Option.some.injEq, exists_eq_left', not_forall, not_not,
          Engine.idOfName_eq_ok holds]
      rw [known, Leaf.Named, Leaf.nameOr, own, Option.some_or, Engine.view_eq holds]
      constructor
      · rintro ⟨id, node, found, same⟩
        obtain rfl := Option.some.inj same
        exact ⟨id, (consistent.indexed id node found).2⟩
      · rintro ⟨id, indexed⟩
        obtain ⟨node, found, rfl⟩ := consistent.named name id indexed
        exact ⟨id, node, found, rfl⟩

theorem query_fails_iff (reachable : Engine.Reachable generated store) (few : generated < UInt32.size)
    (parsed : parseScript script = .ok expr) (stored : GraphStore.node store id = .ok node) :
    (∃ failure, Engine.query script (some node.name) store = .error failure) ↔
      ∃ leaf ∈ expr.leaves, leaf.NamesUnknown store := by
  obtain ⟨contents, described, holds⟩ := reachable.described few
  have named_iff := named_iff_known (described.consistent few) holds stored
  constructor
  · rintro ⟨failure, failed⟩
    by_contra known
    push Not at known
    obtain ⟨answer, ran, -⟩ := query_ok reachable few parsed fun leaf member => (named_iff leaf).2 (known leaf member)
    cases ran.symm.trans failed
  · rintro ⟨leaf, member, unknown⟩
    rcases named_or_first (GraphStore.view store) (some node.name) expr.leaves with
      named | ⟨before, first, after, split, named, unnamed⟩
    · exact absurd unknown ((named_iff leaf).1 (named leaf member))
    · exact ⟨_, query_error reachable few parsed split named unnamed⟩

theorem query_alike (reachable : Engine.Reachable generated store) (few : generated < UInt32.size)
    (parsed : parseScript script = .ok expr) (stored : GraphStore.node store id = .ok node)
    (otherStored : GraphStore.node store otherId = .ok other)
    (failed : Engine.query script (some node.name) store = .error failure) :
    Engine.query script (some other.name) store = .error failure := by
  obtain ⟨contents, described, holds⟩ := reachable.described few
  have consistent := described.consistent few
  have named_iff (leaf : Leaf) : leaf.Named (GraphStore.view store) (some node.name) ↔
      leaf.Named (GraphStore.view store) (some other.name) :=
    (named_iff_known consistent holds stored leaf).trans (named_iff_known consistent holds otherStored leaf).symm
  rcases named_or_first (GraphStore.view store) (some node.name) expr.leaves with
    named | ⟨before, leaf, after, split, named, unnamed⟩
  · obtain ⟨answer, ran, -⟩ := query_ok reachable few parsed named
    cases ran.symm.trans failed
  · have same := (query_error reachable few parsed split named unnamed).symm.trans failed
    have otherFailed := query_error reachable few parsed split
      (fun earlier member => (named_iff earlier).1 (named earlier member)) (unnamed ∘ (named_iff leaf).2)
    rw [named_iff_known consistent holds stored, not_not] at unnamed
    obtain ⟨name, own, -⟩ := unnamed
    have failure_eq (fallback : Option String) : leaf.failure fallback = .nameNotFound name := by
      rw [Leaf.failure, Leaf.nameOr, own]
      rfl
    rw [otherFailed, ← same, failure_eq, failure_eq]

theorem Snapshot.Shows.stored {contents : MemoryStore} (shows : snapshot.Shows contents) (holds : Holds store contents) :
    node ∈ snapshot.nodes.values ↔ ∃ id, GraphStore.node store id = .ok node := by
  simp only [shows.mem_values, Engine.node_eq_ok holds]

section

variable {contents : MemoryStore} (reachable : Engine.Reachable generated store) (few : generated < UInt32.size)
  (parsed : parseScript script = .ok expr) (consistent : Engine.Consistent generated contents)
  (holds : Holds store contents) (shows : snapshot.Shows contents)
include reachable few parsed holds shows

theorem rows_alike (listed : node ∈ snapshot.nodes.values) (otherListed : other ∈ snapshot.nodes.values)
    {otherFailure : Failure} (failed : queryRow store script node = .error failure)
    (otherFailed : queryRow store script other = .error otherFailure) : failure = otherFailure := by
  obtain ⟨id, stored⟩ := (shows.stored holds).1 listed
  obtain ⟨otherId, otherStored⟩ := (shows.stored holds).1 otherListed
  have same := query_alike reachable few parsed stored otherStored (queryRow_eq_error.1 failed)
  exact Except.error.inj (same.symm.trans (queryRow_eq_error.1 otherFailed))

theorem fails_iff_unknown :
    (∃ failure, (candidates snapshot.nodes.values).mapM (queryRow store script) = .error failure) ↔
      (∃ id node, GraphStore.node store id = .ok node ∧ node.name ≠ "") ∧
        ∃ leaf ∈ expr.leaves, leaf.NamesUnknown store := by
  constructor
  · rintro ⟨failure, failed⟩
    obtain ⟨node, listed, fails⟩ := failed_row failed
    obtain ⟨isNode, named⟩ := mem_of_candidates.1 listed
    obtain ⟨id, stored⟩ := (shows.stored holds).1 isNode
    have unknown := (query_fails_iff reachable few parsed stored).1 ⟨failure, queryRow_eq_error.1 fails⟩
    exact ⟨⟨id, node, stored, named⟩, unknown⟩
  · rintro ⟨⟨id, node, stored, named⟩, unknown⟩
    obtain ⟨failure, failed⟩ := (query_fails_iff reachable few parsed stored).2 unknown
    have listed := mem_of_candidates.2 ⟨(shows.stored holds).2 ⟨id, stored⟩, named⟩
    cases all : (candidates snapshot.nodes.values).mapM (queryRow store script) with
    | error first => exact ⟨first, rfl⟩
    | ok entries =>
        obtain ⟨entry, found⟩ := row_of_mapM all listed
        cases found.symm.trans (queryRow_eq_error.2 failed)

theorem query_of_failed_rows (failed : (candidates snapshot.nodes.values).mapM (queryRow store script) = .error failure)
    (stored : GraphStore.node store id = .ok node) : Engine.query script (some node.name) store = .error failure := by
  obtain ⟨other, listed, fails⟩ := failed_row failed
  obtain ⟨otherId, otherStored⟩ := (shows.stored holds).1 (mem_of_candidates.1 listed).1
  exact query_alike reachable few parsed otherStored stored (queryRow_eq_error.1 fails)

theorem gives_iff_mapM {order : List Node} (perm : order.Perm snapshot.nodes.values) {slots : Nat}
    (positive : 0 < slots) (outcome : Outcome (List LeaderboardEntry)) :
    Pool.Gives slots (queryRow store script) (candidates order) outcome ↔
      (candidates order).mapM (queryRow store script) = outcome := by
  have listed {node : Node} (member : node ∈ candidates order) : node ∈ snapshot.nodes.values :=
    perm.mem_iff.1 (mem_of_candidates.1 member).1
  exact Pool.gives_iff positive fun node member other otherMember failure otherFailure =>
    rows_alike reachable few parsed holds shows (listed member) (listed otherMember)

include consistent

theorem ranked_of_perm {order : List Node} (perm : order.Perm snapshot.nodes.values) (limit : Option Nat) :
    ((candidates order).mapM (queryRow store script)).map (ranked limit) =
      ((candidates snapshot.nodes.values).mapM (queryRow store script)).map (ranked limit) := by
  have same : (candidates order).Perm (candidates snapshot.nodes.values) := perm.filter _
  cases all : (candidates snapshot.nodes.values).mapM (queryRow store script) with
  | ok entries =>
      obtain ⟨others, otherAll, otherPerm⟩ := exists_mapM_of_perm same.symm all
      have distinct := shows.distinct consistent (fun _ member => (mem_of_candidates.1 member).1) all
      rw [otherAll]
      refine congrArg Except.ok ?_
      simp only [ranked, mergeSort_eq_of_perm distinct otherPerm.symm]
  | error failure =>
      obtain ⟨node, listed, failed⟩ := failed_row all
      cases otherAll : (candidates order).mapM (queryRow store script) with
      | ok others =>
          obtain ⟨entries, ran, -⟩ := exists_mapM_of_perm same otherAll
          cases ran.symm.trans all
      | error otherFailure =>
          obtain ⟨other, otherListed, otherFailed⟩ := failed_row otherAll
          have alike := rows_alike reachable few parsed holds shows (mem_of_candidates.1 listed).1
            (mem_of_candidates.1 (same.mem_iff.1 otherListed)).1 failed otherFailed
          rw [alike]

end

/-- The rows are the queries about all nodes that have a name, one each, in strict order. -/
structure Ranking (store : σ) (script : String) (rows : List LeaderboardEntry) : Prop where
  listed : ∀ node, node ∈ rows.map (·.node) ↔ (∃ id, GraphStore.node store id = .ok node) ∧ node.name ≠ ""
  once : (rows.map (·.node)).Nodup
  outputs : ∀ row ∈ rows, (Engine.query script (some row.node.name) store).map (·.ids) = .ok row.output
  ordered : rows.Pairwise Above

/-- What the threads of a pool may make of a snapshot, when its nodes come in one order and go into the index of names
in another. -/
def Computes (snapshot : Snapshot) (expr : Expr) (limit : Option Nat) (concurrency : Nat) (order index : List Node)
    (result : Outcome (List LeaderboardEntry)) : Prop :=
  ∃ outcome, Pool.Gives (max concurrency 1) (row expr (snapshot.sourceIn index)) (candidates order) outcome ∧
    result = outcome.map (ranked limit)

theorem leaderboard_eq (reachable : Engine.Reachable generated store) (few : generated < UInt32.size)
    (idle : isCoherent store = .ok true) (parsed : parseScript script = .ok expr)
    (loaded : Snapshot.load store = .ok snapshot) (limit : Option Nat) :
    Engine.leaderboard script limit .never store =
      ((candidates snapshot.nodes.values).mapM (queryRow store script)).map (ranked limit) := by
  rw [leaderboard_idle idle parsed loaded, ← snapshot.sourceIn_values,
    row_eq reachable few idle parsed loaded (.refl _)]

theorem ranking_of_mapM {contents : MemoryStore} (consistent : Engine.Consistent generated contents)
    (holds : Holds store contents) (shows : snapshot.Shows contents) {entries : List LeaderboardEntry}
    (all : (candidates snapshot.nodes.values).mapM (queryRow store script) = .ok entries) :
    Ranking store script (ranked none entries) := by
  have perm : (ranked none entries).Perm entries := List.mergeSort_perm entries _
  have nodes := map_node_of_mapM all
  have nodup : (entries.map (·.node)).Nodup := by
    rw [nodes]
    exact (shows.nodup_ids consistent).of_map.filter _
  constructor
  case listed =>
    intro node
    rw [(perm.map _).mem_iff, nodes, mem_of_candidates, shows.stored holds]
  case once => exact (perm.map _).nodup_iff.2 nodup
  case outputs =>
    intro entry member
    obtain ⟨node, -, found⟩ := (mem_of_mapM all entry).1 (perm.mem_iff.1 member)
    obtain ⟨rfl, output⟩ := queryRow_eq_ok.1 found
    exact output
  case ordered =>
    exact above_mergeSort (shows.distinct consistent (fun _ member => (mem_of_candidates.1 member).1) all) nodup.of_map

/-- What the leaderboards of a script are, told by its queries. -/
structure RanksQueries (store : σ) (script : String) (expr : Expr) : Prop where
  fails_iff : (∃ failure, Engine.leaderboard script none .never store = .error failure) ↔
    (∃ id node, GraphStore.node store id = .ok node ∧ node.name ≠ "") ∧ ∃ leaf ∈ expr.leaves, leaf.NamesUnknown store
  failure : ∀ failure, Engine.leaderboard script none .never store = .error failure →
    ∀ id node, GraphStore.node store id = .ok node → Engine.query script (some node.name) store = .error failure
  rows : ∀ rows, Engine.leaderboard script none .never store = .ok rows → Ranking store script rows
  limited : ∀ limit, Engine.leaderboard script (some limit) .never store =
    (Engine.leaderboard script none .never store).map (·.take limit)
  threads : ∃ snapshot, Snapshot.load store = .ok snapshot ∧ ∀ limit concurrency order index,
    order.Perm snapshot.nodes.values → index.Perm snapshot.nodes.values →
      ∀ result, Computes snapshot expr limit concurrency order index result ↔
        Engine.leaderboard script limit .never store = result

/-- Behind every run: when the worklist is empty, leaderboards rank the answers to queries, whatever the threads and
whatever order the nodes come in; otherwise there are none. -/
theorem leaderboard_exact (reachable : Engine.Reachable generated store) (few : generated < UInt32.size - 1) :
    (GraphStore.worklist store = .ok [] →
      ∀ script expr, parseScript script = .ok expr → RanksQueries store script expr) ∧
    ∀ ids, GraphStore.worklist store = .ok ids → ids ≠ [] → ∀ script limit cancellation,
      Engine.leaderboard script limit cancellation store =
        .error (.precondition "cannot use sorted leaderboards without caching") := by
  refine ⟨fun empty script expr parsed => ?idle, fun ids pending waiting script limit cancellation => ?busy⟩
  case busy =>
    refine leaderboard_busy ?_ limit cancellation
    rw [isCoherent, pending]
    exact congrArg Except.ok (List.isEmpty_eq_false_iff.2 waiting)
  have small : generated < UInt32.size := by omega
  have idle : isCoherent store = .ok true := by
    rw [isCoherent, empty]
    rfl
  obtain ⟨contents, described, holds⟩ := reachable.described small
  have consistent := described.consistent small
  obtain ⟨snapshot, loaded⟩ : ∃ snapshot, Snapshot.load store = .ok snapshot := ⟨_, load_congr holds⟩
  have shows := Snapshot.shows_of_load ((load_congr holds).symm.trans loaded)
  have boards := leaderboard_eq reachable small idle parsed loaded
  constructor
  case fails_iff =>
    simp only [boards, map_eq_error]
    exact fails_iff_unknown reachable small parsed holds shows
  case failure =>
    intro failure failed id node stored
    rw [boards, map_eq_error] at failed
    exact query_of_failed_rows reachable small parsed holds shows failed stored
  case rows =>
    intro rows found
    rw [boards, map_eq_ok] at found
    obtain ⟨entries, all, rfl⟩ := found
    exact ranking_of_mapM consistent holds shows all
  case limited =>
    intro limit
    rw [boards, boards]
    cases (candidates snapshot.nodes.values).mapM (queryRow store script) <;> rfl
  case threads =>
    refine ⟨snapshot, loaded, fun limit concurrency order index orderPerm indexPerm result => ?_⟩
    have positive : 0 < max concurrency 1 := Nat.lt_of_lt_of_le Nat.one_pos (Nat.le_max_right ..)
    have rows := row_eq reachable small idle parsed loaded indexPerm
    have gives := gives_iff_mapM reachable small parsed holds shows orderPerm positive
    rw [boards, ← ranked_of_perm reachable small parsed consistent holds shows orderPerm limit]
    simp only [Computes, rows, gives]
    constructor
    · rintro ⟨outcome, rfl, rfl⟩
      rfl
    · rintro rfl
      exact ⟨_, rfl, rfl⟩

def selfLeaf : Leaf := { relation := .dependencies, nodeType := "library", nodeName := none }

def pairRows : List LeaderboardEntry :=
  [{ node := { id := 1, type := "library", name := "parent", children := .ofSet (.singleton 2) },
     output := .ofList [1, 2] },
   { node := { id := 2, type := "library", name := "child", parents := .ofSet (.singleton 1) },
     output := .singleton 2 }]

theorem leaderboard_refreshedPair :
    Engine.leaderboard "dependencies library" none .never Engine.refreshedPair = .ok pairRows := by
  have idle : isCoherent Engine.refreshedPair = .ok true := by decide +kernel
  have parsed : parseScript "dependencies library" = .ok (.leaf selfLeaf) := by decide +kernel
  obtain ⟨snapshot, loaded⟩ : ∃ snapshot, Snapshot.load Engine.refreshedPair = .ok snapshot := ⟨_, rfl⟩
  have rows : (Snapshot.load Engine.refreshedPair).bind (fun snapshot => (candidates snapshot.nodes.values).mapM
      (queryRow Engine.refreshedPair "dependencies library")) = .ok pairRows := by decide +kernel
  have sorted : pairRows.Pairwise fun entry other => entry.precedes other := by decide +kernel
  rw [loaded] at rows
  rw [leaderboard_eq Engine.reachable_refreshedPair (by decide) idle parsed loaded]
  exact (congrArg (Except.map (ranked none)) rows).trans (congrArg Except.ok (List.mergeSort_of_pairwise sorted))

theorem leaderboard_exact_refreshedPair : Engine.Reachable 2 Engine.refreshedPair ∧
    GraphStore.worklist Engine.refreshedPair = .ok [] ∧ parseScript "dependencies library" = .ok (.leaf selfLeaf) ∧
    ∃ rows, Engine.leaderboard "dependencies library" none .never Engine.refreshedPair = .ok rows ∧
      Ranking Engine.refreshedPair "dependencies library" rows ∧
      rows.map (fun row => (row.node.name, row.output.toList)) = [("parent", [1, 2]), ("child", [2])] := by
  have few : 2 < UInt32.size - 1 := by decide
  have idle : GraphStore.worklist Engine.refreshedPair = .ok [] := by decide +kernel
  have parsed : parseScript "dependencies library" = .ok (.leaf selfLeaf) := by decide +kernel
  have ranks := (leaderboard_exact Engine.reachable_refreshedPair few).1 idle _ _ parsed
  exact ⟨Engine.reachable_refreshedPair, idle, parsed, pairRows, leaderboard_refreshedPair,
    ranks.rows pairRows leaderboard_refreshedPair, by decide +kernel⟩

end

end SupplyGraph.Query
