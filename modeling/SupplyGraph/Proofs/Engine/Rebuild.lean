import SupplyGraph.Proofs.Store.Robust
import Mathlib.Data.Set.Card

/-!
A rebuild is all or nothing, whatever the tables of the store hold and whenever it is cancelled: it fails and leaves
everything alone, or finds nothing to do, or brings all closures up to date and empties the worklist.
-/

namespace SupplyGraph

open Relation (ReflTransGen)

namespace Components

theorem Search.run_persists (children : NodeId → List NodeId) (search : Search) :
    (search.run children).Persists := by
  induction search using Search.run.induct children with
  | case1 search ended =>
      rw [Search.run]
      split
      · exact .pure search
      · simp_all
  | case2 search next moved ih =>
      rw [Search.run]
      split
      · simp_all
      · rename_i other moved'
        obtain rfl := Option.some.inj (moved.symm.trans moved')
        exact (Polled.Persists.tick search.steps).bind fun _ => ih

theorem ofGraph_persists (ids : List NodeId) (children : NodeId → IdSet) : (ofGraph ids children).Persists := by
  refine (Polled.Persists.foldlM (fun search root => ?_) ids _).bind fun _ => .pure _
  unfold Search.visit
  split
  · exact Search.run_persists _ _
  · exact .pure search

end Components

namespace ClosurePass

theorem State.run_persists (plan : Plan) (budget : Nat) (state : State) : (state.run plan budget).Persists := by
  induction budget generalizing state with
  | zero => exact .pure state
  | succ budget ih =>
      unfold State.run
      split
      · exact .pure state
      · exact (Polled.Persists.tick _).bind fun _ => (Polled.Persists.lift _).bind fun _ => ih _

theorem closures_persists (plan : Plan) (ids : List NodeId) : (closures plan ids).Persists := by
  refine (Polled.Persists.foldlM (fun state id => ?_) ids _).bind fun _ => .pure _
  unfold State.visit
  dsimp only
  split
  · exact .pure state
  · exact (Polled.Persists.lift _).bind fun _ => State.run_persists plan _ _

end ClosurePass

theorem buildClosures_failsCancelled (nodes : NodeTable) : (buildClosures nodes).FailsCancelled := by
  refine (Components.ofGraph_persists _ _).bind_fails fun components => ?_
  refine (ClosurePass.closures_persists _ _).bind_fails fun descendants => ?_
  refine (ClosurePass.closures_persists _ _).bind_fails fun ancestors => ?_
  exact .poll _

theorem ncard_setOf_mem {α : Type} {items : List α} (nodup : items.Nodup) :
    {item | item ∈ items}.ncard = items.length := by
  classical
  rw [← List.coe_toFinset, Set.ncard_coe_finset, List.toFinset_card_of_nodup nodup]

namespace Components.Divides

variable {components : Components} {known : NodeId → Prop} {edge : NodeId → NodeId → Prop}

theorem mem_part (divides : components.Divides known edge) (closed : ∀ id other, edge id other → known other)
    {part : NodeId × List NodeId} (listed : part ∈ components.toList) {id : NodeId} (member : id ∈ part.2)
    (other : NodeId) : other ∈ part.2 ↔ ReflTransGen edge id other ∧ ReflTransGen edge other id := by
  have found := (divides.members_iff part listed id).1 member
  rw [divides.members_iff part listed]
  constructor
  · intro otherFound
    exact (divides.same_iff id other _ _ found otherFound).1 rfl
  · rintro ⟨path, back⟩
    have present : known other := by
      rcases ReflTransGen.cases_tail path with rfl | ⟨_, _, last⟩
      · exact divides.known_of_found found
      · exact closed _ _ last
    obtain ⟨representative, otherFound⟩ := Option.isSome_iff_exists.1 ((divides.known_iff other).2 present)
    rw [otherFound, (divides.same_iff id other _ _ found otherFound).2 ⟨path, back⟩]

theorem ncard_classes (divides : components.Divides known edge) (closed : ∀ id other, edge id other → known other) :
    {part | ∃ id, known id ∧ part = {other | ReflTransGen edge id other ∧ ReflTransGen edge other id}}.ncard =
      components.size := by
  let members (part : NodeId × List NodeId) : Set NodeId := {id | id ∈ part.2}
  have nodup : (components.toList.map members).Nodup := by
    refine List.pairwise_map.2 (divides.apart.imp_of_mem fun {part other} listed _ apart same => ?_)
    have head := divides.head_mem listed
    exact apart part.1 head (same ▸ head : part.1 ∈ members other)
  have classes : {part | ∃ id, known id ∧ part = {other | ReflTransGen edge id other ∧ ReflTransGen edge other id}} =
      {part | part ∈ components.toList.map members} := by
    ext part
    simp only [Set.mem_ofPred_eq, List.mem_map]
    constructor
    · rintro ⟨id, present, rfl⟩
      obtain ⟨representative, found⟩ := Option.isSome_iff_exists.1 ((divides.known_iff id).2 present)
      obtain ⟨ids, listed⟩ := divides.listed id representative found
      have member := (divides.members_iff _ listed id).2 found
      exact ⟨_, listed, Set.ext fun other => divides.mem_part closed listed member other⟩
    · rintro ⟨part, listed, rfl⟩
      have head := divides.head_mem listed
      have present := divides.known_of_found ((divides.members_iff part listed part.1).1 head)
      exact ⟨part.1, present, Set.ext fun other => divides.mem_part closed listed head other⟩
  rw [classes, ncard_setOf_mem nodup, List.length_map, size]

end Components.Divides

namespace NodeView

def Mirrored (view : NodeView) : Prop :=
  ∀ id other node neighbour, view id = some node → view other = some neighbour →
    (other ∈ node.children.ids ↔ id ∈ neighbour.parents.ids)

def Edge (view : NodeView) (direction : Direction) (id other : NodeId) : Prop :=
  ∃ node, view id = some node ∧ other ∈ direction.edges node ∧ (view other).isSome

def Leads (view : NodeView) (direction : Direction) : NodeId → NodeId → Prop :=
  ReflTransGen (view.Edge direction)

def ids (view : NodeView) : Set NodeId := {id | (view id).isSome}

def components (view : NodeView) : Set (Set NodeId) :=
  {part | ∃ id ∈ view.ids, part = {other | view.Leads .children id other ∧ view.Leads .children other id}}

end NodeView

namespace Engine

variable {σ : Type} [GraphStore σ]

/-- All closures are up to date, the worklist is empty, and the report counts the stored graph. -/
structure Rebuilt (store : σ) (report : RebuildReport) (after : σ) : Prop where
  worklist : GraphStore.worklist after = .ok []
  readable : ∃ ids, GraphStore.nodeIds store = .ok ids ∧ ∀ id, id ∈ ids ↔ id ∈ (GraphStore.view store).ids
  closures : ∀ id ∈ (GraphStore.view store).ids, ∃ closures,
    GraphStore.closures after id = .ok closures ∧ closures.id = id ∧ ∀ other,
      (other ∈ closures.descendants ↔ (GraphStore.view store).Leads .children id other) ∧
      (other ∈ closures.ancestors ↔ (GraphStore.view store).Leads .parents id other)
  nodes : report.nodes = (GraphStore.view store).ids.ncard
  components : report.components = (GraphStore.view store).components.ncard

/-- The ends that a rebuild may come to; `untouched` says of a store that only closures and worklist differ. -/
def AllOrNothing (store : σ) (untouched : σ → Prop) : Outcome (Option RebuildReport) × σ → Prop
  | (.error _, after) => after = store
  | (.ok none, after) => after = store ∧ GraphStore.worklist store = .ok []
  | (.ok (some report), after) => untouched after ∧ Rebuilt store report after

def publish (nodes : NodeTable) : Polled (Option (List Closures × RebuildReport)) := do
  let (closures, components) ← buildClosures nodes
  Polled.poll
  return some (closures, { nodes := closures.length, components := components.size })

theorem planRebuild_eq (cancellation : Cancellation) (store : σ) :
    (planRebuild store).run' cancellation = (do
      if ← isCoherent store then return none
      (publish (← GraphStore.load store)).run' cancellation) := by
  have loading : planRebuild store = (liftM (isCoherent store) >>= fun coherent =>
      if coherent then pure none else liftM (GraphStore.nodeIds store) >>= fun ids =>
        liftM (GraphStore.nodes store ids) >>= publish : Polled _) := by
    unfold planRebuild
    refine bind_congr fun coherent => ?_
    cases coherent <;> rfl
  rw [loading, Polled.run'_lift_bind]
  refine bind_congr fun coherent => ?_
  cases coherent with
  | true => rfl
  | false =>
      simp only [Bool.false_eq_true, if_false, Polled.run'_lift_bind, GraphStore.load, bind_assoc]

theorem publish_yields {nodes : NodeTable} (mirrored : nodes.Mirrored) :
    (publish nodes).Yields fun plan => ∃ (records : List Closures) (components : Components),
      plan = some (records, { nodes := records.length, components := components.size }) ∧
        components.Divides (· ∈ nodes) (Direction.children.Edge nodes) ∧ Closures.Complete nodes records := by
  refine (buildClosures_yields mirrored).bind fun built ⟨exact, complete⟩ => ?_
  exact Polled.Yields.poll.bind fun _ _ => .pure ⟨built.1, built.2, rfl, exact.toDivides, complete⟩

variable [RobustGraphStore σ] {store : σ} {nodes : NodeTable}

theorem rebuilt_of_complete (loaded : GraphStore.load store = .ok nodes) {records : List Closures}
    {components : Components} (divides : components.Divides (· ∈ nodes) (Direction.children.Edge nodes))
    (complete : Closures.Complete nodes records) (plain : ∀ closures ∈ records, closures.Plain) :
    Rebuilt store { nodes := records.length, components := components.size }
      (GraphStore.clearWork (GraphStore.saveClosures records store)) := by
  have same := RobustGraphStore.load loaded
  have stored (id : NodeId) : id ∈ (GraphStore.view store).ids ↔ id ∈ nodes := by
    rw [Std.TreeMap.mem_iff_isSome_getElem?, same]
    exact Iff.rfl
  have edges (direction : Direction) : direction.Edge nodes = (GraphStore.view store).Edge direction := by
    funext id other
    simp only [Direction.Edge, NodeView.Edge, Std.TreeMap.mem_iff_isSome_getElem?, same]
  constructor
  case worklist => exact RobustGraphStore.worklist _
  case readable =>
    obtain ⟨ids, listed, members⟩ := RobustGraphStore.listed loaded
    exact ⟨ids, listed, fun id => (members id).trans (stored id).symm⟩
  case closures =>
    intro id inside
    have member : id ∈ records.map (·.id) := complete.ids.mem_iff.2 (Std.TreeMap.mem_keys.2 ((stored id).1 inside))
    obtain ⟨record, listed, rfl⟩ := List.mem_map.1 member
    have nodup : (records.map (·.id)).Nodup := complete.ids.nodup_iff.2 Std.TreeMap.nodup_keys
    refine ⟨record, RobustGraphStore.closures store nodup record listed (plain record listed), rfl, fun other => ?_⟩
    rw [NodeView.Leads, NodeView.Leads, ← edges, ← edges]
    exact ⟨complete.exact record listed .children other, complete.exact record listed .parents other⟩
  case nodes =>
    have ids : (GraphStore.view store).ids = {id | id ∈ nodes.keys} := by
      ext id
      rw [stored, ← Std.TreeMap.mem_keys]
      exact Iff.rfl
    have count := complete.ids.length_eq
    rw [List.length_map] at count
    rw [ids, ncard_setOf_mem Std.TreeMap.nodup_keys, ← count]
  case components =>
    rw [← divides.ncard_classes fun _ _ edge => edge.choose_spec.2.2, edges]
    simp only [NodeView.components, NodeView.Leads, stored]

theorem isCoherent_eq_true {σ : Type} [GraphStore σ] {store : σ} :
    isCoherent store = .ok true ↔ GraphStore.worklist store = .ok [] := by
  unfold isCoherent
  rw [bind_eq_ok]
  constructor
  · rintro ⟨ids, read, empty⟩
    rw [read, List.isEmpty_iff.1 (Except.ok.inj empty)]
  · exact fun read => ⟨[], read, rfl⟩

theorem mirrored_of_load (loaded : GraphStore.load store = .ok nodes) (mirrored : (GraphStore.view store).Mirrored) :
    nodes.Mirrored := by
  intro id other node neighbour found otherFound
  rw [RobustGraphStore.load loaded] at found otherFound
  exact mirrored id other node neighbour found otherFound

theorem planRebuild_of_load {σ : Type} [GraphStore σ] {store : σ} {nodes : NodeTable}
    (coherent : isCoherent store = .ok false) (loaded : GraphStore.load store = .ok nodes)
    (cancellation : Cancellation) : (planRebuild store).run' cancellation = (publish nodes).run' cancellation := by
  rw [planRebuild_eq, coherent, loaded]
  rfl

theorem rebuild_allOrNothing (mirrored : (GraphStore.view store).Mirrored) (cancellation : Cancellation)
    {untouched : σ → Prop}
    (frame : ∀ records, untouched (GraphStore.clearWork (GraphStore.saveClosures records store))) :
    AllOrNothing store untouched (rebuild cancellation store) := by
  -- All failures come before the first write, so there are only two ends.
  rw [rebuild_eq]
  cases coherent : isCoherent store with
  | error failure =>
      rw [planRebuild_eq, coherent]
      exact rfl
  | ok idle =>
      cases idle with
      | true =>
          rw [planRebuild_eq, coherent]
          exact ⟨rfl, isCoherent_eq_true.1 coherent⟩
      | false =>
          cases loaded : GraphStore.load store with
          | error failure =>
              rw [planRebuild_eq, coherent, loaded]
              exact rfl
          | ok nodes =>
              cases planned : (planRebuild store).run' cancellation with
              | error failure => exact rfl
              | ok plan =>
                  have published := planned
                  rw [planRebuild_of_load coherent loaded] at published
                  obtain ⟨records, components, rfl, divides, complete⟩ :=
                    (publish_yields (mirrored_of_load loaded mirrored)).ensures.of_run' published
                  have plain := (planRebuild_plain store).of_run' planned records _ rfl
                  exact ⟨frame records, rebuilt_of_complete loaded divides complete plain⟩

theorem rebuild_already {σ : Type} [GraphStore σ] {store : σ} (pending : GraphStore.worklist store ≠ .ok []) :
    ∃ failure, rebuild .already store = (.error failure, store) := by
  rw [rebuild_eq]
  cases coherent : isCoherent store with
  | error failure =>
      rw [planRebuild_eq, coherent]
      exact ⟨failure, rfl⟩
  | ok idle =>
      cases idle with
      | true => exact absurd (isCoherent_eq_true.1 coherent) pending
      | false =>
          cases loaded : GraphStore.load store with
          | error failure =>
              rw [planRebuild_eq, coherent, loaded]
              exact ⟨failure, rfl⟩
          | ok nodes =>
              have fails : (publish nodes).FailsCancelled := (buildClosures_failsCancelled nodes).bind _
              obtain ⟨failure, failed⟩ := fails
              rw [planRebuild_of_load coherent loaded, StateT.run', failed]
              exact ⟨failure, rfl⟩

theorem Reachable.mirrored {σ : Type} [GraphStore σ] [LawfulGraphStore σ] {store : σ} {generated : Nat}
    (reachable : Reachable generated store) (few : generated < UInt32.size) : (GraphStore.view store).Mirrored := by
  obtain ⟨contents, described, holds⟩ := reachable.described few
  rw [view_eq holds]
  exact (described.consistent few).wired.mirrored

/-- A rebuild is all or nothing in both stores, whatever their tables hold, if only the graph that can be read is
mirrored, and whenever the cancellation comes. -/
theorem rebuild_atomic (cancellation : Cancellation) :
    (∀ store : MemoryStore, (GraphStore.view store).Mirrored →
      AllOrNothing store (fun after => ∃ closures, after = { store with closures, worklist := [] })
        (rebuild cancellation store)) ∧
    (∀ store : PersistentStore, (GraphStore.view store).Mirrored →
      AllOrNothing store (fun after => ∃ closures, after = { store with closures, worklist := ∅ })
        (rebuild cancellation store)) ∧
    (∀ store : MemoryStore, GraphStore.worklist store ≠ .ok [] →
      ∃ failure, rebuild .already store = (.error failure, store)) ∧
    (∀ store : PersistentStore, GraphStore.worklist store ≠ .ok [] →
      ∃ failure, rebuild .already store = (.error failure, store)) := by
  refine ⟨fun store mirrored => ?_, fun store mirrored => ?_, fun store => rebuild_already,
    fun store => rebuild_already⟩
  · refine rebuild_allOrNothing mirrored cancellation fun records => ?_
    refine ⟨(GraphStore.saveClosures records store).closures, ?_⟩
    rw [show GraphStore.saveClosures records store = _ from MemoryStore.foldl_saveClosures records store]
    rfl
  · refine rebuild_allOrNothing mirrored cancellation fun records => ?_
    refine ⟨(GraphStore.saveClosures records store).closures, ?_⟩
    rw [show GraphStore.saveClosures records store = _ from PersistentStore.foldl_saveClosures records store]
    rfl

def unreadableStore : PersistentStore :=
  { nodes := (∅ : ByteTable).insert (PersistentStore.keyOfId 1) []
    worklist := (∅ : ByteTable).insert (PersistentStore.keyOfId 1) [] }

theorem rebuild_atomic_pairStore_unreadableStore :
    (∃ after, rebuild .never pairStore = (.ok (some { nodes := 2, components := 2 }), after) ∧
      Rebuilt pairStore { nodes := 2, components := 2 } after) ∧
    (∃ failure, rebuild .already pairStore = (.error failure, pairStore)) ∧
    ∃ failure, rebuild .never unreadableStore = (.error failure, unreadableStore) := by
  have mirrored : (GraphStore.view pairStore).Mirrored := reachable_pairStore.mirrored (by decide)
  have nothing (id : NodeId) : GraphStore.view unreadableStore id = none := by
    change (unreadableStore.node id).toOption = none
    unfold PersistentStore.node unreadableStore
    rw [Std.TreeMap.getElem?_insert]
    by_cases same : compare (PersistentStore.keyOfId 1) (PersistentStore.keyOfId id) = .eq
    · rw [if_pos same]
      have unread : (Node.ofJson []).toOption = none := by decide +kernel
      exact unread
    · rw [if_neg same, Std.TreeMap.getElem?_emptyc]
      rfl
  have pending : GraphStore.worklist pairStore ≠ .ok [] := by decide +kernel
  refine ⟨?_, (rebuild_atomic .never).2.2.1 pairStore pending, ?_⟩
  · have settled := (rebuild_atomic .never).1 pairStore mirrored
    have result : (rebuild .never pairStore).1 = .ok (some { nodes := 2, components := 2 }) := by decide +kernel
    rcases ran : rebuild .never pairStore with ⟨outcome, after⟩
    rw [ran] at settled result
    obtain rfl : outcome = _ := result
    exact ⟨after, rfl, settled.2⟩
  · have settled := (rebuild_atomic .never).2.1 unreadableStore fun id _ _ _ found => by
      rw [nothing] at found
      cases found
    have result : (rebuild .never unreadableStore).1 = .error (.json "malformed node record") := by decide +kernel
    rcases ran : rebuild .never unreadableStore with ⟨outcome, after⟩
    rw [ran] at settled result
    obtain rfl : outcome = _ := result
    obtain rfl : after = unreadableStore := settled
    exact ⟨_, rfl⟩

end Engine

end SupplyGraph
