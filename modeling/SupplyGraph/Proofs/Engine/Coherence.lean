import SupplyGraph.Proofs.Engine.Change

/-!
The closures behind an empty worklist are up to date. Adding a node or a new edge leaves an id on the worklist, a
rebuild that is cancelled leaves the worklist alone, and dropping the closures puts every id back that had some.
-/

namespace SupplyGraph.Engine

def UpToDate (store : MemoryStore) (id : NodeId) : Prop :=
  ∃ closures, store.closures[id]? = some closures ∧
    ∀ (direction : Direction) other, other ∈ direction.closure closures ↔ direction.Reaches store.nodes id other

def Coherent (store : MemoryStore) : Prop := store.worklist = [] → ∀ id ∈ store.nodes, UpToDate store id

theorem UpToDate.congr {before after : MemoryStore} {id : NodeId} (upToDate : UpToDate before id)
    (nodes : after.nodes = before.nodes) (closures : after.closures = before.closures) : UpToDate after id := by
  rw [UpToDate, nodes, closures]
  exact upToDate

theorem upToDate_saveClosures {before after : MemoryStore} {records : List Closures}
    (complete : Closures.Complete before.nodes records) (nodes : after.nodes = before.nodes)
    (closures : after.closures = (records.foldl MemoryStore.saveClosures before).closures) {id : NodeId}
    (present : id ∈ before.nodes) : UpToDate after id := by
  have nodup : (records.map (·.id)).Nodup := complete.ids.nodup_iff.2 Std.TreeMap.nodup_keys
  have member : id ∈ records.map (·.id) := complete.ids.mem_iff.2 (Std.TreeMap.mem_keys.2 present)
  obtain ⟨record, listed, rfl⟩ := List.mem_map.1 member
  refine ⟨record, ?_, fun direction other => ?_⟩
  · rw [closures, MemoryStore.foldl_saveClosures]
    exact getElem?_insertAll_of_nodup (fun closures => closures) nodup before.closures listed
  · rw [nodes]
    exact complete.exact record listed direction other

theorem Coherent.change {before after : MemoryStore} {ids : Nat} (coherent : Coherent before)
    (change : Change before ids after) : Coherent after := by
  intro done
  cases change with
  | insert new unknown =>
      -- The closures of a new node are empty, but its id is on the worklist.
      exact absurd done (by simp [withNode])
  | link edges after present linked =>
      obtain rfl := linked.pending done
      exact coherent done
  | custom tag key field data => exact fun id present => (coherent done id present).congr rfl rfl

theorem Coherent.changes {before after : MemoryStore} {ids : Nat} (coherent : Coherent before)
    (changes : Changes before ids after) : Coherent after := by
  induction changes with
  | none => exact coherent
  | more _ between _ after _ change ih => exact ih.change change

theorem Refreshed.coherent {before after : MemoryStore} (refreshed : Refreshed before after) : Coherent after := by
  obtain ⟨-, nodes, -⟩ := refreshed.graph
  obtain ⟨records, complete, rfl⟩ := refreshed
  intro _ id present
  exact upToDate_saveClosures complete nodes rfl (nodes ▸ present)

theorem Coherent.dropClosures {store : MemoryStore} (coherent : Coherent store) : Coherent store.dropClosures := by
  intro done
  -- What is dropped goes on the worklist: if that is empty, there were no closures, and so no nodes.
  obtain ⟨empty, noClosures⟩ := List.append_eq_nil_iff.1 done
  intro id present
  obtain ⟨closures, found, -⟩ := coherent empty id present
  have listed : id ∈ store.closures.keys := Std.TreeMap.mem_keys.2 (mem_of_getElem? found)
  rw [noClosures] at listed
  exact absurd listed List.not_mem_nil

theorem Coherent.effect {operation : Operation} {before after : MemoryStore} (coherent : Coherent before)
    (effect : Effect operation before after) : Coherent after := by
  cases effect with
  | changed after changes => exact coherent.changes changes
  | refreshed after _ refreshed => exact refreshed.coherent
  | dropped _ => exact coherent.dropClosures

theorem coherent_empty : Coherent ({} : MemoryStore) := by
  intro _ id present
  exact absurd present Std.TreeMap.not_mem_emptyc

theorem Reachable.coherent {generated : Nat} {store : MemoryStore} (reachable : Reachable generated store)
    (few : generated < UInt32.size) : Coherent store := by
  induction reachable with
  | empty => exact coherent_empty
  | step earlier store operation before ih =>
      have consistent := before.consistent (by omega)
      exact (ih (by omega)).effect (consistent.operation operation)

end SupplyGraph.Engine
