import SupplyGraph.Proofs.Engine.Operation
import SupplyGraph.Proofs.Store.Saving
import SupplyGraph.Proofs.Update

/-!
What the operations leave alone, whatever the tables of a store hold, also records that cannot be read. Custom data
change only when a field is put, and the next id only when an id is given away.
-/

namespace SupplyGraph

structure Aside where
  nextId : NodeId
  fields : String → String → Outcome FieldMap

def Aside.after (aside : Aside) (ids : Nat) : Aside := { aside with nextId := aside.nextId + .ofNat ids }

@[simp] theorem Aside.after_zero (aside : Aside) : aside.after 0 = aside := by simp [after]

@[simp] theorem Aside.after_after (aside : Aside) (ids more : Nat) :
    (aside.after ids).after more = aside.after (ids + more) := by
  simp [after, UInt32.ofNat_add, UInt32.add_assoc]

def GraphStore.aside {σ : Type} [GraphStore σ] (store : σ) : Aside :=
  ⟨(GraphStore.newId store).1, fun tag key => GraphStore.fields tag key store⟩

open GraphStore (aside)

class FramedGraphStore (σ : Type) [GraphStore σ] : Prop where
  aside_newId : ∀ store : σ, aside (GraphStore.newId store).2 = (aside store).after 1
  aside_saveNodes : ∀ (nodes : List Node) (store : σ), aside (GraphStore.saveNodes nodes store) = aside store
  aside_saveClosures : ∀ (records : List Closures) (store : σ),
    aside (GraphStore.saveClosures records store) = aside store
  aside_pushWork : ∀ (id : NodeId) (store : σ), aside (GraphStore.pushWork id store) = aside store
  aside_clearWork : ∀ store : σ, aside (GraphStore.clearWork store) = aside store
  aside_dropClosures : ∀ store : σ, aside (GraphStore.dropClosures store) = aside store
  nextId_putField : ∀ {tag key field : String} {data : Bytes} {store changed : σ},
    GraphStore.putField tag key field data store = .ok changed → (aside changed).nextId = (aside store).nextId

attribute [simp] FramedGraphStore.aside_newId FramedGraphStore.aside_saveNodes FramedGraphStore.aside_saveClosures
  FramedGraphStore.aside_pushWork FramedGraphStore.aside_clearWork FramedGraphStore.aside_dropClosures

instance : FramedGraphStore MemoryStore where
  aside_newId _ := rfl
  aside_saveNodes nodes store := by
    change aside (nodes.foldl MemoryStore.saveNode store) = _
    rw [MemoryStore.foldl_saveNode]
    rfl
  aside_saveClosures records store := by
    change aside (records.foldl MemoryStore.saveClosures store) = _
    rw [MemoryStore.foldl_saveClosures]
    rfl
  aside_pushWork _ _ := rfl
  aside_clearWork _ := rfl
  aside_dropClosures _ := rfl
  nextId_putField written := by
    obtain rfl := Except.ok.inj written
    rfl

namespace PersistentStore

theorem putField_eq_ok {tag key field : String} {data : Bytes} {store changed : PersistentStore} :
    store.putField tag key field data = .ok changed ↔ ∃ before, store.fields tag key = .ok before ∧ changed =
      { store with
        custom := store.custom.insert (customKey tag key) (FieldMap.encode (before.insert field data)) } := by
  rw [putField, bind_eq_ok]
  refine exists_congr fun before => and_congr_right fun _ => ?_
  rw [eq_comm (a := changed)]
  exact ⟨Except.ok.inj, congrArg Except.ok⟩

instance : FramedGraphStore PersistentStore where
  aside_newId store := by
    have next : (GraphStore.newId (GraphStore.newId store).2).1 = (GraphStore.newId store).1 + 1 :=
      congrArg (· + 1) store.lastId_newId
    rw [aside, next]
    rfl
  aside_saveNodes nodes store := by
    change aside (nodes.foldl PersistentStore.saveNode store) = _
    rw [PersistentStore.foldl_saveNode]
    rfl
  aside_saveClosures records store := by
    change aside (records.foldl PersistentStore.saveClosures store) = _
    rw [PersistentStore.foldl_saveClosures]
    rfl
  aside_pushWork _ _ := rfl
  aside_clearWork _ := rfl
  aside_dropClosures _ := rfl
  nextId_putField written := by
    obtain ⟨before, -, rfl⟩ := putField_eq_ok.1 written
    rfl

end PersistentStore

namespace Update

variable {σ α β ω : Type} {view : σ → ω}

def Leaves (view : σ → ω) (update : Update σ α) : Prop := ∀ store, view (update store).2 = view store

namespace Leaves

theorem pure (value : α) : Leaves view (pure value : Update σ α) := fun _ => rfl

theorem throw (failure : Failure) : Leaves view (throw failure : Update σ α) := fun _ => rfl

theorem read (query : σ → Outcome α) : Leaves view (Update.read query) := fun _ => rfl

theorem write {change : σ → σ} (same : ∀ store, view (change store) = view store) :
    Leaves view (Update.write change) := same

theorem view_bind {first : Update σ α} {next : α → Update σ β} (rest : ∀ value, Leaves view (next value)) (store : σ) :
    view ((first >>= next) store).2 = view (first store).2 := by
  rcases ran : first store with ⟨result, between⟩
  cases result with
  | ok value => rw [bind_ok ran, rest value between]
  | error failure => rw [bind_error ran]

theorem bind {first : Update σ α} {next : α → Update σ β} (leaves : Leaves view first)
    (rest : ∀ value, Leaves view (next value)) : Leaves view (first >>= next) :=
  fun store => (view_bind rest store).trans (leaves store)

theorem returning {update : Update σ α} (leaves : Leaves view update) (answer : α → β) :
    Leaves view (do return answer (← update)) :=
  leaves.bind fun value => .pure (answer value)

end Leaves

end Update

namespace Engine

open Update (Leaves)

variable {σ : Type} [GraphStore σ] [FramedGraphStore σ]

theorem link_leaves (edges : List (NodeId × NodeId)) : Leaves aside (link edges : Update σ Nat) :=
  (Leaves.read _).bind fun plan => (Leaves.write (by simp)).bind fun _ => .pure plan.2

theorem setDependency_leaves (parent child : NodeId) : Leaves aside (setDependency parent child : Update σ Unit) := by
  unfold setDependency
  split
  · exact (Leaves.throw _).bind fun _ => (link_leaves _).returning _
  · exact (link_leaves _).returning _

theorem rebuild_leaves (cancellation : Cancellation) :
    Leaves aside (rebuild cancellation : Update σ (Option RebuildReport)) := by
  refine (Leaves.read _).bind fun plan => ?_
  cases plan with
  | none => exact .pure none
  | some plan => exact (Leaves.write (by simp)).bind fun _ => (Leaves.write (by simp)).bind fun _ => .pure _

theorem clear_leaves : Leaves aside (clear : Update σ Unit) := Leaves.write (by simp)

omit [FramedGraphStore σ] in
theorem insertNode_unknown {new : NewNode} {store : σ} (unknown : lookUp store new.name = .ok none) :
    let id := (GraphStore.newId store).1
    let node : Node := { id, type := new.type, name := new.name, metadata := new.metadata }
    insertNode new store = (.ok (node, true),
      GraphStore.saveClosures [{ id }] (GraphStore.saveNodes [node] (GraphStore.newId store).2)) :=
  Update.bind_read (lookUp · new.name) unknown

omit [FramedGraphStore σ] in
theorem insertNode_leaves {new : NewNode} {store : σ} (known : lookUp store new.name ≠ .ok none) :
    (insertNode new store).2 = store ∧ idsOfNode new store = 0 := by
  unfold insertNode idsOfNode
  cases found : lookUp store new.name with
  | error failure =>
      rw [Update.bind_read_error (lookUp · new.name) found]
      exact ⟨rfl, rfl⟩
  | ok known? =>
      rw [Update.bind_read (lookUp · new.name) found]
      cases known? with
      | none => exact absurd found known
      | some id => exact ⟨congrArg Prod.snd (Update.bind_pure _ _ store), rfl⟩

theorem aside_insertNode (new : NewNode) (store : σ) :
    aside (insertNode new store).2 = (aside store).after (idsOfNode new store) := by
  by_cases unknown : lookUp store new.name = .ok none
  · simp [insertNode_unknown unknown, idsOfNode, unknown]
  · obtain ⟨same, noIds⟩ := insertNode_leaves unknown
    rw [same, noIds, Aside.after_zero]

theorem aside_insertNodes (nodes : List NewNode) (store : σ) :
    aside (insertNodes nodes store).2 = (aside store).after (idsOfNodes nodes store) := by
  unfold insertNodes
  -- The fold counts from zero on; the induction needs every number.
  generalize 0 = count
  induction nodes generalizing store count with
  | nil => exact (Aside.after_zero _).symm
  | cons new nodes ih =>
      have counted : (do
          let made ← insertNode new
          return if made.2 then count + 1 else count : Update σ Nat) store = _ :=
        Update.bind_pure (insertNode new) _ store
      rw [List.foldlM_cons, idsOfNodes, ← Aside.after_after, ← aside_insertNode]
      rcases ran : insertNode new store with ⟨result, next⟩
      rw [ran] at counted
      cases result with
      | ok made =>
          rw [Update.bind_ok counted]
          exact ih next _
      | error failure => rw [Update.bind_error counted, Aside.after_zero]

theorem aside_ingest (batch : IngestBatch) (store : σ) :
    aside (ingest batch store).2 = (aside store).after (idsOfNodes batch.nodes store) := by
  rw [← aside_insertNodes]
  exact Leaves.view_bind (fun _ => (Leaves.read _).bind fun _ => (link_leaves _).returning _) store

def Operation.puts : Operation → Bool
  | putField .. => true
  | _ => false

theorem Operation.aside_apply {operation : Operation} (other : operation.puts = false) (store : σ) :
    aside (operation.apply store) = (aside store).after (operation.ids store) := by
  cases operation with
  | addNode new => exact (Leaves.view_bind (fun made => .pure made.1) store).trans (aside_insertNode new store)
  | setDependency parent child => exact (setDependency_leaves parent child store).trans (Aside.after_zero _).symm
  | addDependencies edges => exact (link_leaves edges store).trans (Aside.after_zero _).symm
  | ingest batch => exact aside_ingest batch store
  | rebuild cancellation => exact (rebuild_leaves cancellation store).trans (Aside.after_zero _).symm
  | clear => exact (clear_leaves store).trans (Aside.after_zero _).symm
  | putField tag key field data => cases other

theorem Operation.nextId_apply (operation : Operation) (store : σ) :
    (aside (operation.apply store)).nextId = (aside store).nextId + .ofNat (operation.ids store) := by
  cases puts : operation.puts with
  | false => rw [aside_apply puts, Aside.after]
  | true =>
      cases operation with
      | putField tag key field data =>
          change (aside (Update.tryWrite (GraphStore.putField tag key field data) store).2).nextId = _
          unfold Update.tryWrite
          split
          next changed written => simpa [ids] using FramedGraphStore.nextId_putField written
          next => simp [ids]
      | _ => cases puts

end Engine

end SupplyGraph
