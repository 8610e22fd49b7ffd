import SupplyGraph.Proofs.Format.Bitmap
import SupplyGraph.Store.Memory

/-!
Stores that behave as memory stores do. What such a store holds is described by a memory store; reading it gives
what the memory store gives, and writing to both keeps the description true. Custom data does not count.
-/

namespace SupplyGraph

class LawfulGraphStore (σ : Type) [GraphStore σ] where
  /-- The store holds what the memory store holds. -/
  Holds : σ → MemoryStore → Prop
  empty : Holds GraphStore.empty {}
  newId_eq : ∀ {store contents}, Holds store contents → (GraphStore.newId store).1 = contents.newId.1
  newId : ∀ {store contents}, Holds store contents → Holds (GraphStore.newId store).2 contents.newId.2
  saveNodes : ∀ {store contents} (nodes : List Node), Holds store contents → (∀ node ∈ nodes, node.Plain) →
    Holds (GraphStore.saveNodes nodes store) (nodes.foldl MemoryStore.saveNode contents)
  node : ∀ {store contents}, Holds store contents → ∀ id, GraphStore.node store id = contents.node id
  nodes : ∀ {store contents}, Holds store contents → ∀ ids, GraphStore.nodes store ids = .ok (contents.nodeTable ids)
  nodeIds : ∀ {store contents}, Holds store contents → GraphStore.nodeIds store = .ok contents.nodes.keys
  idOfName : ∀ {store contents}, Holds store contents → ∀ name, GraphStore.idOfName store name = contents.idOfName name
  saveClosures : ∀ {store contents} (records : List Closures), Holds store contents →
    (∀ closures ∈ records, closures.Plain) →
    Holds (GraphStore.saveClosures records store) (records.foldl MemoryStore.saveClosures contents)
  closures : ∀ {store contents}, Holds store contents → ∀ id, GraphStore.closures store id = contents.closuresOf id
  closureTable : ∀ {store contents}, Holds store contents →
    ∀ ids, GraphStore.closureTable store ids = .ok (contents.closureTable ids)
  worklist : ∀ {store contents}, Holds store contents →
    ∃ ids, GraphStore.worklist store = .ok ids ∧ ∀ id, id ∈ ids ↔ id ∈ contents.worklist
  clearWork : ∀ {store contents}, Holds store contents →
    Holds (GraphStore.clearWork store) { contents with worklist := [] }
  dropClosures : ∀ {store contents}, Holds store contents → Holds (GraphStore.dropClosures store) contents.dropClosures
  putField : ∀ {store contents} {changed : σ} (tag key field : String) (data : Bytes), Holds store contents →
    GraphStore.putField tag key field data store = .ok changed → Holds changed contents

namespace MemoryStore

theorem foldl_withCustom {α : Type} {save : MemoryStore → α → MemoryStore}
    (keeps : ∀ store custom record, save { store with custom } record = { save store record with custom })
    (records : List α) (store : MemoryStore) (custom : Std.TreeMap String (Std.TreeMap String FieldMap)) :
    records.foldl save { store with custom } = { records.foldl save store with custom } := by
  induction records generalizing store with
  | nil => rfl
  | cons record records ih => rw [List.foldl_cons, keeps, ih, List.foldl_cons]

instance : LawfulGraphStore MemoryStore where
  Holds store contents := ∃ custom, contents = { store with custom }
  empty := ⟨∅, rfl⟩
  newId_eq := by
    rintro store contents ⟨custom, rfl⟩
    rfl
  newId := by
    rintro store contents ⟨custom, rfl⟩
    exact ⟨custom, rfl⟩
  saveNodes := by
    rintro store contents nodes ⟨custom, rfl⟩ -
    exact ⟨custom, foldl_withCustom (fun _ _ _ => rfl) nodes store custom⟩
  node := by
    rintro store contents ⟨custom, rfl⟩ id
    rfl
  nodes := by
    rintro store contents ⟨custom, rfl⟩ ids
    rfl
  nodeIds := by
    rintro store contents ⟨custom, rfl⟩
    rfl
  idOfName := by
    rintro store contents ⟨custom, rfl⟩ name
    rfl
  saveClosures := by
    rintro store contents records ⟨custom, rfl⟩ -
    exact ⟨custom, foldl_withCustom (fun _ _ _ => rfl) records store custom⟩
  closures := by
    rintro store contents ⟨custom, rfl⟩ id
    rfl
  closureTable := by
    rintro store contents ⟨custom, rfl⟩ ids
    rfl
  worklist := by
    rintro store contents ⟨custom, rfl⟩
    exact ⟨store.worklist, rfl, fun id => Iff.rfl⟩
  clearWork := by
    rintro store contents ⟨custom, rfl⟩
    exact ⟨custom, rfl⟩
  dropClosures := by
    rintro store contents ⟨custom, rfl⟩
    exact ⟨custom, rfl⟩
  putField := by
    rintro store contents changed tag key field data ⟨custom, rfl⟩ written
    obtain rfl := Except.ok.inj written
    exact ⟨custom, rfl⟩

end MemoryStore

end SupplyGraph
