import SupplyGraph.Proofs.Engine.Growth

/-!
Closures that are behind the graph. Whoever finds the worklist empty takes the stored closures for exact, while calls
go on changing the graph. Until the next rebuild these closures stay what they were, and those of a node that was made
since are empty.
-/

namespace SupplyGraph.Engine

open LawfulGraphStore (Holds tracks)

variable {generated ids : Nat} {past before after : MemoryStore}

/-- The closures are still the exact ones of an earlier store, and empty for the nodes made since. -/
structure Lags (past now : MemoryStore) : Prop where
  grows : Grows past now
  idle : past.worklist = []
  stored : ∀ id ∈ past.nodes, UpToDate past id ∧ now.closures[id]? = past.closures[id]?
  made : ∀ id ∈ now.nodes, id ∉ past.nodes → now.closures[id]? = some { id }
  settled : now.worklist = [] → ∀ id ∈ now.nodes, id ∈ past.nodes

theorem Coherent.lags {store : MemoryStore} (coherent : Coherent store) (idle : store.worklist = []) :
    Lags store store where
  grows := .refl store
  idle := idle
  stored id present := ⟨coherent idle id present, rfl⟩
  made _ present absent := absurd present absent
  settled _ _ present := present

theorem Lags.withNode (lags : Lags past before) (consistent : Consistent generated before)
    (few : generated + 1 < UInt32.size) {new : NewNode} (unknown : before.names[new.name]? = none) :
    Lags past (Engine.withNode new before) := by
  obtain ⟨-, free⟩ := consistent.next few
  constructor
  case grows => exact lags.grows.trans (consistent.grows_withNode few unknown)
  case idle => exact lags.idle
  case stored =>
    intro id present
    obtain ⟨upToDate, same⟩ := lags.stored id present
    have isOld : before.lastId + 1 ≠ id := fun isNew => free (isNew ▸ lags.grows.mem present)
    rw [getElem?_closures_withNode, if_neg isOld]
    exact ⟨upToDate, same⟩
  case made =>
    intro id present absent
    rw [getElem?_closures_withNode]
    split
    · rename_i isNew
      rw [isNew]
    · rename_i isOld
      rcases Std.TreeMap.mem_insert.1 present with isNew | old
      · exact absurd (Std.compare_eq_iff_eq.1 isNew) isOld
      · exact lags.made id old absent
  case settled => exact fun done => absurd done (by simp [Engine.withNode])

theorem Lags.change (lags : Lags past before) (consistent : Consistent generated before)
    (change : Change before ids after) (few : generated + ids < UInt32.size) : Lags past after := by
  have grows := lags.grows.trans (consistent.grows_change change few)
  cases change with
  | insert new unknown => exact lags.withNode consistent few unknown
  | link edges after present linked =>
      constructor
      case grows => exact grows
      case idle => exact lags.idle
      case stored => exact fun id present => linked.closures ▸ lags.stored id present
      case made =>
        intro id present absent
        rw [linked.closures]
        exact lags.made id ((linked.mem_nodes id).1 present) absent
      case settled =>
        intro done
        obtain rfl := linked.pending done
        exact lags.settled done
  | custom tag key field data => exact ⟨grows, lags.idle, lags.stored, lags.made, lags.settled⟩

theorem Lags.changes (lags : Lags past before) (consistent : Consistent generated before)
    (changes : Changes before ids after) (few : generated + ids < UInt32.size) : Lags past after := by
  induction changes with
  | none => exact lags
  | more earlier between ids after made change ih =>
      rw [← Nat.add_assoc] at few
      exact (ih (by omega)).change (consistent.changes made (by omega)) change few

variable {σ : Type} [GraphStore σ] [LawfulGraphStore σ] {store : σ} {contents : MemoryStore}

theorem isCoherent_eq (holds : Holds store contents) : isCoherent store = .ok contents.worklist.isEmpty :=
  isCoherent_congr holds

/-- A store of the run that its last closures are exact for. -/
structure Behind (operations : List Operation) (store : σ) (past now : MemoryStore) : Prop where
  lags : Lags past now
  consistent : ∃ generated, Consistent generated past
  state : ∃ earlier, earlier <+: operations ∧ Holds (run earlier store) past
  seen : ∀ earlier, earlier <+: operations → isCoherent (run earlier store) = .ok true →
    ∀ name id, GraphStore.idOfName (run earlier store) name = .ok id → past.names[name]? = some id

theorem Lags.known {now : MemoryStore} (lags : Lags past now) {first second : Nat} (old : Consistent first past)
    (new : Consistent second now) (idle : now.worklist = []) {name : String} {id : NodeId}
    (known : now.names[name]? = some id) : past.names[name]? = some id := by
  obtain ⟨node, found, rfl⟩ := new.named name id known
  obtain ⟨before, stored⟩ := getElem?_of_mem (lags.settled idle id (mem_of_getElem? found))
  obtain ⟨later, foundLater, kept⟩ := lags.grows.nodes id before stored
  obtain rfl := Option.some.inj (found.symm.trans foundLater)
  rw [kept.name]
  exact (old.indexed id before stored).2

theorem Behind.step {operations : List Operation} {operation : Operation} {now : MemoryStore}
    (behind : Behind operations store past now) (consistent : Consistent generated now) (keeps : operation ≠ .clear)
    (effect : Effect operation now after) (holds : Holds (run (operations ++ [operation]) store) after)
    (few : generated + operation.ids now < UInt32.size) :
    ∃ past, Behind (operations ++ [operation]) store past after := by
  have next := consistent.effect effect few
  cases effect with
  | changed after changes =>
      have lags := behind.lags.changes consistent changes few
      obtain ⟨ids, old⟩ := behind.consistent
      obtain ⟨earlier, isPrefix, holdsEarlier⟩ := behind.state
      refine ⟨past, lags, ⟨ids, old⟩, ⟨earlier, isPrefix.trans (List.prefix_append ..), holdsEarlier⟩, ?_⟩
      intro earlier isPrefix idle name id known
      rcases List.prefix_concat_iff.1 isPrefix with rfl | isPrefix
      · rw [isCoherent_eq holds] at idle
        have empty := List.isEmpty_iff.1 (Except.ok.inj idle)
        exact lags.known old next empty ((idOfName_eq_ok holds).1 known)
      · exact behind.seen earlier isPrefix idle name id known
  | refreshed after _ refreshed =>
      have idle : after.worklist = [] := by
        obtain ⟨_, -, rfl⟩ := refreshed
        rfl
      refine ⟨after, refreshed.coherent.lags idle, ⟨_, next⟩, ⟨_, List.prefix_rfl, holds⟩, ?_⟩
      intro earlier isPrefix coherent name id known
      rcases List.prefix_concat_iff.1 isPrefix with rfl | isPrefix
      · exact (idOfName_eq_ok holds).1 known
      · obtain ⟨-, -, names⟩ := refreshed.graph
        rw [names]
        exact behind.lags.grows.names name id (behind.seen earlier isPrefix coherent name id known)
  | dropped drops => exact absurd drops keeps

theorem Consistent.behind (consistent : Consistent generated contents) (holds : Holds store contents)
    (coherent : Coherent contents) (idle : contents.worklist = []) (operations : List Operation)
    (keeps : .clear ∉ operations) (few : generated + idsOfRun operations store < UInt32.size) :
    ∃ past now, Consistent (generated + idsOfRun operations store) now ∧ Holds (run operations store) now ∧
      Behind operations store past now := by
  induction operations using List.reverseRecOn with
  | nil =>
      refine ⟨contents, contents, consistent, holds, coherent.lags idle, ⟨_, consistent⟩,
        ⟨[], List.prefix_rfl, holds⟩, ?_⟩
      intro earlier isPrefix _ name id known
      obtain rfl := List.prefix_nil.1 isPrefix
      exact (idOfName_eq_ok holds).1 known
  | append_singleton operations operation ih =>
      rw [idsOfRun_append, ← Nat.add_assoc] at few ⊢
      obtain ⟨past, now, consistentNow, holdsNow, behind⟩ :=
        ih (fun member => keeps (List.mem_append_left _ member)) (by omega)
      have sameIds : idsOfRun [operation] (run operations store) = operation.ids now :=
        operation.ids_congr tracks holdsNow
      rw [sameIds] at few ⊢
      obtain ⟨after, holdsAfter, effect⟩ := operation.apply_described consistentNow holdsNow
      have described : Holds (run (operations ++ [operation]) store) after := by
        rw [run_append]
        exact holdsAfter
      have kept : operation ≠ .clear := fun drops => keeps (drops ▸ List.mem_append_right _ (List.mem_singleton_self _))
      obtain ⟨past, further⟩ := behind.step consistentNow kept effect described few
      exact ⟨past, after, consistentNow.effect effect few, described, further⟩

end SupplyGraph.Engine
