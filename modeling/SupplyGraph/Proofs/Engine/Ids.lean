import SupplyGraph.Proofs.Engine.Framing
import SupplyGraph.Proofs.Engine.Growth

/-!
The ids that a store hands out, over anything that can be done to it. They are consecutive, and so each is above all
earlier ones until the numbers are used up. Then they begin again, and a new node takes the place of an old one.
-/

namespace SupplyGraph.Engine

open GraphStore (aside)
open LawfulGraphStore (Holds tracks)

def consecutive (first : NodeId) (count : Nat) : List NodeId := (List.range count).map fun k => first + .ofNat k

@[simp] theorem length_consecutive (first : NodeId) (count : Nat) : (consecutive first count).length = count := by
  simp [consecutive]

@[simp] theorem consecutive_zero (first : NodeId) : consecutive first 0 = [] := rfl

@[simp] theorem consecutive_one (first : NodeId) : consecutive first 1 = [first] := by simp [consecutive]

theorem consecutive_add (first : NodeId) (count more : Nat) :
    consecutive first (count + more) = consecutive first count ++ consecutive (first + .ofNat count) more := by
  simp [consecutive, List.range_add, UInt32.ofNat_add, UInt32.add_assoc]

theorem toNat_one_add {k : Nat} (small : k + 1 < UInt32.size) : (1 + UInt32.ofNat k).toNat = k + 1 := by
  have fits : k < 2 ^ 32 := Nat.lt_of_succ_lt small
  rw [UInt32.toNat_add, UInt32.toNat_ofNat', Nat.mod_eq_of_lt fits, UInt32.toNat_one, Nat.add_comm]
  exact Nat.mod_eq_of_lt small

theorem ascending_consecutive {count : Nat} : (consecutive 1 count).Pairwise (· < ·) ↔ count < UInt32.size := by
  rw [consecutive, List.pairwise_map]
  constructor
  · intro ascending
    by_contra many
    have last : UInt32.size - 1 < count := Nat.lt_of_lt_of_le (by decide) (Nat.not_lt.1 many)
    have first : 0 < count := Nat.lt_of_le_of_lt (Nat.zero_le _) last
    have wrapped := List.pairwise_iff_getElem.1 ascending 0 (UInt32.size - 1) (by simpa) (by simpa) (by decide)
    rw [List.getElem_range, List.getElem_range] at wrapped
    exact absurd wrapped (by decide)
  · intro few
    refine List.pairwise_lt_range.imp_of_mem fun {k later} _ member below => ?_
    have last := List.mem_range.1 member
    rw [UInt32.lt_iff_toNat_lt, toNat_one_add (by omega), toNat_one_add (by omega)]
    exact Nat.succ_lt_succ below

theorem toNat_le_of_mem {count : Nat} (few : count < UInt32.size) {id : NodeId} (member : id ∈ consecutive 1 count) :
    id.toNat ≤ count := by
  obtain ⟨k, listed, rfl⟩ := List.mem_map.1 member
  have below := List.mem_range.1 listed
  rw [toNat_one_add (by omega)]
  exact below

/-- Anything that can be done to a store, besides reading it. -/
inductive Action
  | newId
  | operation (operation : Operation)
  | saveNodes (nodes : List Node)
  | saveClosures (records : List Closures)
  | pushWork (id : NodeId)
  | clearWork
  | reopen

section

variable {σ : Type} [GraphStore σ]

def insertedId (new : NewNode) (store : σ) : List NodeId :=
  match lookUp store new.name with
  | .ok none => [(GraphStore.newId store).1]
  | _ => []

def insertedIds : List NewNode → σ → List NodeId
  | [], _ => []
  | new :: rest, store =>
    insertedId new store ++ match insertNode new store with
      | (.ok _, next) => insertedIds rest next
      | (.error _, _) => []

def Operation.newIds (operation : Operation) (store : σ) : List NodeId :=
  match operation with
  | addNode new => insertedId new store
  | ingest batch => insertedIds batch.nodes store
  | _ => []

namespace Action

def newIds (action : Action) (store : σ) : List NodeId :=
  match action with
  | newId => [(GraphStore.newId store).1]
  | operation made => made.newIds store
  | _ => []

def apply (reopened : σ → σ) (action : Action) (store : σ) : σ :=
  match action with
  | newId => (GraphStore.newId store).2
  | operation made => made.apply store
  | saveNodes nodes => GraphStore.saveNodes nodes store
  | saveClosures records => GraphStore.saveClosures records store
  | pushWork id => GraphStore.pushWork id store
  | clearWork => GraphStore.clearWork store
  | reopen => reopened store

def isCall : Action → Bool
  | newId | operation _ | reopen => true
  | _ => false

end Action

def after (reopened : σ → σ) (actions : List Action) (store : σ) : σ :=
  actions.foldl (fun store action => action.apply reopened store) store

def handedOut (reopened : σ → σ) : List Action → σ → List NodeId
  | [], _ => []
  | action :: rest, store => action.newIds store ++ handedOut reopened rest (action.apply reopened store)

theorem insertedId_eq (new : NewNode) (store : σ) :
    insertedId new store = consecutive (aside store).nextId (idsOfNode new store) := by
  unfold insertedId idsOfNode
  cases lookUp store new.name with
  | error failure => rfl
  | ok known => cases known <;> simp [aside]

variable [FramedGraphStore σ]

theorem insertedIds_eq (nodes : List NewNode) (store : σ) :
    insertedIds nodes store = consecutive (aside store).nextId (idsOfNodes nodes store) := by
  induction nodes generalizing store with
  | nil => rfl
  | cons new nodes ih =>
      have start : (aside (insertNode new store).2).nextId = (aside store).nextId + .ofNat (idsOfNode new store) :=
        congrArg Aside.nextId (aside_insertNode new store)
      rw [insertedIds, idsOfNodes, consecutive_add, insertedId_eq]
      rcases ran : insertNode new store with ⟨result, between⟩
      rw [ran] at start
      cases result with
      | ok made =>
          change _ ++ insertedIds nodes between = _ ++ consecutive _ (idsOfNodes nodes between)
          rw [ih, start]
      | error failure => rfl

theorem Operation.newIds_eq (operation : Operation) (store : σ) :
    operation.newIds store = consecutive (aside store).nextId (operation.ids store) := by
  cases operation with
  | addNode new => exact insertedId_eq new store
  | ingest batch => exact insertedIds_eq batch.nodes store
  | _ => rfl

theorem Action.nextId_apply {reopened : σ → σ} (kept : ∀ store, reopened store = store) (action : Action) (store : σ) :
    (aside (action.apply reopened store)).nextId = (aside store).nextId + .ofNat (action.newIds store).length := by
  cases action with
  | newId => exact congrArg Aside.nextId (FramedGraphStore.aside_newId store)
  | operation made =>
      change (aside (made.apply store)).nextId = _ + .ofNat (made.newIds store).length
      rw [made.nextId_apply, made.newIds_eq, length_consecutive]
  | reopen => simp [apply, newIds, kept]
  | _ => simp [apply, newIds]

theorem Action.newIds_eq (action : Action) (store : σ) :
    action.newIds store = consecutive (aside store).nextId (action.newIds store).length := by
  cases action with
  | newId => simp [newIds, aside]
  | operation made =>
      change made.newIds store = consecutive _ (made.newIds store).length
      rw [made.newIds_eq, length_consecutive]
  | _ => rfl

theorem handedOut_eq {reopened : σ → σ} (kept : ∀ store, reopened store = store) (actions : List Action) (store : σ) :
    handedOut reopened actions store = consecutive (aside store).nextId (handedOut reopened actions store).length := by
  induction actions generalizing store with
  | nil => rfl
  | cons action actions ih =>
      rw [handedOut, List.length_append, consecutive_add, ← action.newIds_eq, ← action.nextId_apply kept, ← ih]

end

variable {σ : Type} [GraphStore σ] [LawfulGraphStore σ] {store : σ} {contents : MemoryStore} {generated : Nat}

theorem Consistent.newId (consistent : Consistent generated contents) (few : generated + 1 < UInt32.size) :
    Consistent (generated + 1) contents.newId.2 where
  lastId := (consistent.next few).1
  bounded id stored := (consistent.bounded id stored).imp_right Nat.le_succ_of_le
  indexed := consistent.indexed
  named := consistent.named
  wired := consistent.wired
  plain := consistent.plain

theorem addNode_unknown (holds : Holds store contents) {new : NewNode} (unknown : contents.names[new.name]? = none) :
    (addNode new store).1 = .ok (madeNode new contents) ∧ Holds (addNode new store).2 (withNode new contents) := by
  obtain ⟨same, described⟩ := (insertNode_agrees tracks holds new).returning Prod.fst
  have ran : addNode new contents = (.ok (madeNode new contents), withNode new contents) :=
    Update.bind_ok (insertNode_new unknown)
  change (addNode new store).1 = (addNode new contents).1 at same
  change Holds (addNode new store).2 (addNode new contents).2 at described
  rw [ran] at same described
  exact ⟨same, described⟩

theorem addNode_fresh (consistent : Consistent generated contents) (holds : Holds store contents)
    (few : generated + 1 < UInt32.size) {new : NewNode}
    (unknown : GraphStore.idOfName store new.name = .error (.nameNotFound new.name)) :
    ∃ node, (addNode new store).1 = .ok node ∧ node.name = new.name ∧ node.id.toNat = generated + 1 ∧
      GraphStore.node store node.id = .error (.nodeNotFound node.id) ∧
      GraphStore.node (addNode new store).2 node.id = .ok node ∧
      ∀ id other, GraphStore.node store id = .ok other → GraphStore.node (addNode new store).2 id = .ok other := by
  obtain ⟨nextId, free⟩ := consistent.next few
  have noId : contents.names[new.name]? = none := by
    rw [LawfulGraphStore.idOfName holds, MemoryStore.idOfName] at unknown
    cases found : contents.names[new.name]? <;> simp_all
  obtain ⟨made, described⟩ := addNode_unknown holds noId
  refine ⟨madeNode new contents, made, rfl, nextId, ?_, ?_, fun id other found => ?_⟩
  · rw [LawfulGraphStore.node holds, MemoryStore.node, madeNode, Std.TreeMap.getElem?_eq_none free]
  · rw [node_eq_ok described, getElem?_nodes_withNode]
    exact if_pos rfl
  · have stored := (node_eq_ok holds).1 found
    rw [node_eq_ok described, getElem?_nodes_withNode, if_neg, stored]
    exact fun same => free (same ▸ mem_of_getElem? stored)

theorem ingest_fresh (consistent : Consistent generated contents) (holds : Holds store contents) (batch : IngestBatch)
    (few : generated + idsOfNodes batch.nodes store < UInt32.size) :
    (∀ id other, GraphStore.node store id = .ok other →
      ∃ now, GraphStore.node (ingest batch store).2 id = .ok now ∧ Extends other now) ∧
    ∀ id now, GraphStore.node (ingest batch store).2 id = .ok now → (∀ other, GraphStore.node store id ≠ .ok other) →
      generated < id.toNat := by
  obtain ⟨later, described, effect⟩ := (Operation.ingest batch).apply_described consistent holds
  have sameIds : idsOfNodes batch.nodes store = (Operation.ingest batch).ids contents :=
    idsOfNodes_congr tracks holds batch.nodes
  have grows := consistent.grows_effect effect (sameIds ▸ few)
  constructor
  · intro id other found
    obtain ⟨now, kept, larger⟩ := grows.nodes id other ((node_eq_ok holds).1 found)
    exact ⟨now, (node_eq_ok described).2 kept, larger⟩
  · exact fun id now found absent => consistent.lt_of_newer grows holds described found absent

variable [FramedGraphStore σ]

theorem after_described {reopened : σ → σ} (kept : ∀ store, reopened store = store) {actions : List Action}
    (calls : ∀ action ∈ actions, action.isCall) (consistent : Consistent generated contents)
    (holds : Holds store contents)
    (few : generated + (handedOut reopened actions store).length < UInt32.size) :
    ∃ later, Holds (after reopened actions store) later ∧
      Consistent (generated + (handedOut reopened actions store).length) later := by
  induction actions generalizing generated store contents with
  | nil => exact ⟨contents, holds, consistent⟩
  | cons action actions ih =>
      rw [handedOut, List.length_append, ← Nat.add_assoc] at few ⊢
      have ⟨isCall, calls⟩ := List.forall_mem_cons.1 calls
      have step : ∃ next, Holds (action.apply reopened store) next ∧
          Consistent (generated + (action.newIds store).length) next := by
        cases action with
        | newId => exact ⟨_, LawfulGraphStore.newId holds, consistent.newId (by simp [Action.newIds] at few; omega)⟩
        | operation made =>
            have count : (made.newIds store).length = made.ids contents := by
              rw [made.newIds_eq, length_consecutive, made.ids_congr tracks holds]
            obtain ⟨next, described, effect⟩ := made.apply_described consistent holds
            refine ⟨next, described, ?_⟩
            change Consistent (generated + (made.newIds store).length) next
            change _ + (made.newIds store).length + _ < _ at few
            rw [count] at few ⊢
            exact consistent.effect effect (by omega)
        | reopen =>
            refine ⟨contents, ?_, consistent⟩
            rw [Action.apply, kept]
            exact holds
        | _ => cases isCall
      obtain ⟨next, described, still⟩ := step
      exact ih calls still described few

structure KeepsApart (ids : List NodeId) (store : σ) : Prop where
  added : ids.length + 1 < UInt32.size → ∀ new,
    GraphStore.idOfName store new.name = .error (.nameNotFound new.name) →
      ∃ node, (addNode new store).1 = .ok node ∧ node.name = new.name ∧ (∀ id ∈ ids, id < node.id) ∧
        GraphStore.node store node.id = .error (.nodeNotFound node.id) ∧
        GraphStore.node (addNode new store).2 node.id = .ok node ∧
        ∀ id other, GraphStore.node store id = .ok other → GraphStore.node (addNode new store).2 id = .ok other
  ingested : ∀ batch, ids.length + idsOfNodes batch.nodes store < UInt32.size →
    (∀ id other, GraphStore.node store id = .ok other →
      ∃ now, GraphStore.node (ingest batch store).2 id = .ok now ∧ Extends other now) ∧
    ∀ id now, GraphStore.node (ingest batch store).2 id = .ok now → (∀ other, GraphStore.node store id ≠ .ok other) →
      ∀ earlier ∈ ids, earlier < id

/-- The ids of a run are one, two and so on, whatever is done in between, so they ascend until the numbers are used up,
and until then no new node takes the place of another. -/
theorem ids_of_run {reopened : σ → σ} (kept : ∀ store, reopened store = store) (actions : List Action) :
    let ids := handedOut reopened actions (GraphStore.empty : σ)
    ids = consecutive 1 ids.length ∧ (ids.Pairwise (· < ·) ↔ ids.length < UInt32.size) ∧
    ((∀ action ∈ actions, action.isCall) → KeepsApart ids (after reopened actions (GraphStore.empty : σ))) := by
  intro ids
  have first : (aside (GraphStore.empty : σ)).nextId = 1 := LawfulGraphStore.newId_eq LawfulGraphStore.empty
  have same : ids = consecutive 1 ids.length := first ▸ handedOut_eq kept actions GraphStore.empty
  refine ⟨same, ?ascending, fun calls => ⟨fun few new unknown => ?added, fun batch few => ?ingested⟩⟩
  case ascending =>
    rw [same, length_consecutive]
    exact ascending_consecutive
  all_goals
    have most : ∀ id ∈ ids, id.toNat ≤ ids.length := fun id member => toNat_le_of_mem (by omega) (same ▸ member)
    obtain ⟨contents, holds, consistent⟩ :=
      after_described kept calls consistent_empty LawfulGraphStore.empty (by omega : 0 + ids.length < UInt32.size)
    rw [Nat.zero_add] at consistent
  case added =>
    obtain ⟨node, made, named, number, free, stored, others⟩ := addNode_fresh consistent holds few unknown
    refine ⟨node, made, named, fun id member => UInt32.lt_iff_toNat_lt.2 ?_, free, stored, others⟩
    exact number ▸ Nat.lt_succ_of_le (most id member)
  case ingested =>
    obtain ⟨others, newer⟩ := ingest_fresh consistent holds batch few
    refine ⟨others, fun id now found absent earlier member => UInt32.lt_iff_toNat_lt.2 ?_⟩
    exact Nat.lt_of_le_of_lt (most earlier member) (newer id now found absent)

def reopenedRun : List Action :=
  [.newId, .operation (.addNode { type := "library", name := "a" }), .reopen, .newId,
    .operation (.ingest { nodes := [{ type := "library", name := "b" }, { type := "library", name := "c" }] })]

theorem ids_of_run_reopenedRun :
    let store := after PersistentStore.reopen reopenedRun (GraphStore.empty : PersistentStore)
    handedOut PersistentStore.reopen reopenedRun (GraphStore.empty : PersistentStore) = [1, 2, 3, 4, 5] ∧
    ∃ node, (addNode { type := "library", name := "d" } store).1 = .ok node ∧ node.name = "d" ∧ 5 < node.id := by
  intro store
  have unknown : GraphStore.idOfName store "d" = .error (.nameNotFound "d") := by decide +kernel
  have count : (handedOut PersistentStore.reopen reopenedRun (GraphStore.empty : PersistentStore)).length = 5 := by
    decide +kernel
  obtain ⟨same, -, apart⟩ := ids_of_run PersistentStore.reopen_eq reopenedRun
  rw [count] at same
  have ids := same.trans (show consecutive 1 5 = [1, 2, 3, 4, 5] by decide)
  have few : (handedOut PersistentStore.reopen reopenedRun (GraphStore.empty : PersistentStore)).length + 1 <
      UInt32.size := by
    rw [count]
    decide
  obtain ⟨node, made, named, above, -⟩ := (apart (by decide)).added few { type := "library", name := "d" } unknown
  exact ⟨ids, node, made, named, above 5 (by simp [ids])⟩

omit [FramedGraphStore σ] in
theorem holds_newIds (reopened : σ → σ) (holds : Holds store contents) (count : Nat) :
    Holds (after reopened (.replicate count .newId) store)
      { contents with lastId := contents.lastId + .ofNat count } := by
  induction count generalizing store contents with
  | zero => simpa [after] using holds
  | succ count ih =>
      have next := ih (LawfulGraphStore.newId holds)
      have moved : contents.lastId + 1 + .ofNat count = contents.lastId + .ofNat (count + 1) := by
        rw [Nat.add_comm, UInt32.ofNat_add, ← UInt32.add_assoc]
        rfl
      rw [← moved]
      exact next

omit [FramedGraphStore σ] [LawfulGraphStore σ] in
theorem length_handedOut_newIds (reopened : σ → σ) (count : Nat) (store : σ) :
    (handedOut reopened (.replicate count .newId) store).length = count := by
  induction count generalizing store with
  | zero => rfl
  | succ count ih => simp [List.replicate_succ, handedOut, Action.newIds, ih]

def nodeA : NewNode := { type := "library", name := "a" }

def nodeB : NewNode := { type := "library", name := "b" }

def allIds : List Action := .operation (.addNode nodeA) :: .replicate (UInt32.size - 1) .newId

theorem holds_allIds : Holds (after PersistentStore.reopen allIds (GraphStore.empty : PersistentStore))
    { withNode nodeA {} with lastId := 0 } := by
  have added := (addNode_unknown (LawfulGraphStore.empty : Holds (GraphStore.empty : PersistentStore) _)
    (show ({} : MemoryStore).names[nodeA.name]? = none by simp)).2
  -- The number of ids is a variable, so that nothing counts up to it.
  have used (count : Nat) (wraps : (withNode nodeA {}).lastId + .ofNat count = 0) :
      Holds (after PersistentStore.reopen (.operation (.addNode nodeA) :: .replicate count .newId) GraphStore.empty)
        { withNode nodeA {} with lastId := 0 } := by
    have moved := holds_newIds PersistentStore.reopen added count
    rw [wraps] at moved
    exact moved
  exact used (UInt32.size - 1) (by decide)

theorem length_handedOut_allIds :
    (handedOut PersistentStore.reopen allIds (GraphStore.empty : PersistentStore)).length = UInt32.size := by
  have length (count : Nat) : (handedOut PersistentStore.reopen
      (.operation (.addNode nodeA) :: .replicate count .newId) (GraphStore.empty : PersistentStore)).length =
      1 + count := by
    rw [handedOut, List.length_append, length_handedOut_newIds]
    rfl
  exact length (UInt32.size - 1)

/-- With the last number handed out, the ids begin again, and the node that is added next takes the place of the first
one, to which its old name still leads. -/
theorem node_overwritten :
    let store := after PersistentStore.reopen allIds (GraphStore.empty : PersistentStore)
    ¬(handedOut PersistentStore.reopen allIds (GraphStore.empty : PersistentStore)).Pairwise (· < ·) ∧
    (∃ node, GraphStore.node store 1 = .ok node ∧ node.name = "a") ∧
    ∃ node, (addNode nodeB store).1 = .ok node ∧ node.id = 1 ∧ node.name = "b" ∧
      GraphStore.node (addNode nodeB store).2 1 = .ok node ∧
      GraphStore.idOfName (addNode nodeB store).2 "a" = .ok 1 := by
  intro store
  have unknown : ({ withNode nodeA {} with lastId := 0 } : MemoryStore).names[nodeB.name]? = none := by decide
  obtain ⟨made, described⟩ := addNode_unknown holds_allIds unknown
  refine ⟨?_, ⟨madeNode nodeA {}, ?_, rfl⟩, _, made, by decide, rfl, ?_, ?_⟩
  · have ids := handedOut_eq PersistentStore.reopen_eq allIds (GraphStore.empty : PersistentStore)
    rw [length_handedOut_allIds] at ids
    rw [ids]
    exact fun ascending => Nat.lt_irrefl _ (ascending_consecutive.1 ascending)
  · rw [node_eq_ok holds_allIds]
    decide
  · rw [node_eq_ok described]
    decide
  · rw [idOfName_eq_ok described]
    decide

end SupplyGraph.Engine
