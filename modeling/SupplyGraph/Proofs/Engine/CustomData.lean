import SupplyGraph.Proofs.Store.CustomData

/-!
Custom data behind a run. A field holds the data that were put last into its slot under its name, whatever else was
done. So memory stores keep the fields of a tag and a key apart from all others, and persistent stores do when no tag
has a zero character in it.
-/

namespace SupplyGraph.Engine

section

variable {κ : Type} [DecidableEq κ] {slot : String → String → κ} {here : κ} {operations : List Operation}
  {field : String} {data : Bytes}

def Operation.put? (slot : String → String → κ) (here : κ) (field : String) : Operation → Option Bytes
  | putField tag key name data => if slot tag key = here ∧ name = field then some data else none
  | _ => none

def lastPut (slot : String → String → κ) (here : κ) (operations : List Operation) (field : String) : Option Bytes :=
  (operations.filterMap fun operation => operation.put? slot here field).getLast?

@[simp] theorem lastPut_nil : lastPut slot here [] field = none := rfl

theorem lastPut_append (earlier : List Operation) (operation : Operation) :
    lastPut slot here (earlier ++ [operation]) field =
      (operation.put? slot here field).or (lastPut slot here earlier field) := by
  unfold lastPut
  cases put : operation.put? slot here field <;> simp [List.filterMap_append, put]

theorem Operation.put?_eq_some {operation : Operation} : operation.put? slot here field = some data ↔
    ∃ tag key, operation = putField tag key field data ∧ slot tag key = here := by
  cases operation with
  | putField tag key name other => grind [put?]
  | _ => simp [put?]

theorem Operation.put?_of_not_puts {operation : Operation} (other : operation.puts = false) :
    operation.put? slot here field = none := by
  cases operation with
  | putField tag key name data => cases other
  | _ => rfl

theorem exists_of_lastPut (put : lastPut slot here operations field = some data) :
    ∃ tag key, Operation.putField tag key field data ∈ operations ∧ slot tag key = here := by
  obtain ⟨operation, listed, puts⟩ := List.mem_filterMap.1 (List.mem_of_getLast? put)
  obtain ⟨tag, key, rfl, same⟩ := Operation.put?_eq_some.1 puts
  exact ⟨tag, key, listed, same⟩

theorem lastPut_congr {κ' : Type} [DecidableEq κ'] {slot' : String → String → κ'} {here' : κ'}
    (same : ∀ tag key field data, Operation.putField tag key field data ∈ operations →
      (slot tag key = here ↔ slot' tag key = here')) :
    lastPut slot here operations field = lastPut slot' here' operations field := by
  have each : ∀ operation ∈ operations, operation.put? slot here field = operation.put? slot' here' field := by
    intro operation listed
    cases operation with
    | putField tag key name data => simp only [Operation.put?, same tag key name data listed]
    | _ => rfl
  rw [lastPut, List.filterMap_congr each, lastPut]

end

section

open SlottedGraphStore (Slot slot Durable)

variable {σ : Type} [GraphStore σ] [FramedGraphStore σ] [SlottedGraphStore σ] [DecidableEq (Slot σ)]

def Shows (operations : List Operation) (store : σ) : Prop := ∀ tag key, ∃ found,
  GraphStore.fields tag key store = .ok found ∧
    ∀ field : String, found[field]? = lastPut slot (slot tag key : Slot σ) operations field

theorem Shows.apply {earlier : List Operation} {operation : Operation} {store : σ} (shows : Shows earlier store)
    (durable : ∀ tag key (found : FieldMap),
      (∀ field : String, found[field]? = lastPut slot (slot tag key : Slot σ) (earlier ++ [operation]) field) →
        Durable σ found) : Shows (earlier ++ [operation]) (operation.apply store) := by
  intro tag key
  obtain ⟨found, read, same⟩ := shows tag key
  cases puts : operation.puts with
  | false =>
      have kept := congrArg (Aside.fields · tag key) (Operation.aside_apply puts store)
      refine ⟨found, kept.trans read, fun field => ?_⟩
      rw [lastPut_append, Operation.put?_of_not_puts puts, Option.none_or, same]
  | true =>
      cases operation with
      | putField other otherKey name data =>
          obtain ⟨before, readBefore, sameBefore⟩ := shows other otherKey
          have written (field : String) : (before.insert name data)[field]? = lastPut slot
              (slot other otherKey : Slot σ) (earlier ++ [.putField other otherKey name data]) field := by
            rw [lastPut_append, Std.TreeMap.getElem?_insert, sameBefore]
            by_cases here : name = field <;> simp [Operation.put?, here]
          obtain ⟨changed, ran, each⟩ := SlottedGraphStore.putField readBefore (durable _ _ _ written)
          have after : (Operation.putField other otherKey name data).apply store = changed := by
            change (Update.tryWrite (GraphStore.putField other otherKey name data) store).2 = changed
            rw [Update.tryWrite, ran]
          rw [after]
          by_cases shared : (slot tag key : Slot σ) = slot other otherKey
          · obtain ⟨now, readNow, sameNow⟩ := (each tag key).1 shared
            exact ⟨now, readNow, fun field => by rw [sameNow, written, shared]⟩
          · refine ⟨found, ((each tag key).2 shared).trans read, fun field => ?_⟩
            rw [lastPut_append, same]
            simp [Operation.put?, Ne.symm shared]
      | _ => cases puts

theorem shows_run {operations : List Operation}
    (durable : ∀ earlier, earlier <+: operations → ∀ tag key (found : FieldMap),
      (∀ field : String, found[field]? = lastPut slot (slot tag key : Slot σ) earlier field) → Durable σ found) :
    Shows operations (run operations (GraphStore.empty : σ)) := by
  induction operations using List.reverseRecOn with
  | nil => exact fun tag key => ⟨∅, SlottedGraphStore.fields_empty tag key, by simp⟩
  | append_singleton earlier operation ih =>
      rw [run_append]
      have shows := ih fun start isStart => durable start (isStart.trans (List.prefix_append ..))
      exact shows.apply (durable _ (List.prefix_refl _))

end

open PersistentStore (customKey)

def Operation.field? : Operation → Option String
  | putField _ _ field _ => some field
  | _ => none

/-- The records of the run have words for all their lengths. -/
structure Storable (operations : List Operation) : Prop where
  few : FieldMap.IsWord operations.length
  entries : ∀ tag key field data, Operation.putField tag key field data ∈ operations →
    FieldMap.EntryFits (field, data)

theorem Storable.of_prefix {earlier operations : List Operation} (storable : Storable operations)
    (isStart : earlier <+: operations) : Storable earlier where
  few := Nat.lt_of_le_of_lt isStart.length_le storable.few
  entries tag key field data listed := storable.entries tag key field data (isStart.subset listed)

theorem Storable.fits {κ : Type} [DecidableEq κ] {slot : String → String → κ} {here : κ}
    {operations : List Operation} (storable : Storable operations) {found : FieldMap}
    (same : ∀ field : String, found[field]? = lastPut slot here operations field) : found.Fits := by
  have put {field : String} {data : Bytes} (listed : (field, data) ∈ found.toList) :
      ∃ tag key, Operation.putField tag key field data ∈ operations ∧ slot tag key = here := by
    rw [Std.TreeMap.mem_toList_iff_getElem?_eq_some, same] at listed
    exact exists_of_lastPut listed
  constructor
  case size =>
    have names : found.toList.map Prod.fst ⊆ operations.filterMap Operation.field? := by
      intro name listed
      obtain ⟨⟨field, data⟩, present, rfl⟩ := List.mem_map.1 listed
      obtain ⟨tag, key, member, -⟩ := put present
      exact List.mem_filterMap.2 ⟨_, member, rfl⟩
    have fewer := (found.nodup_names.subperm names).length_le
    rw [List.length_map, Std.TreeMap.length_toList] at fewer
    exact Nat.lt_of_le_of_lt (fewer.trans (List.length_filterMap_le _ _)) storable.few
  case entries =>
    intro ⟨field, data⟩ listed
    obtain ⟨tag, key, member, -⟩ := put listed
    exact storable.entries tag key field data member

theorem Storable.shows {operations : List Operation} (storable : Storable operations) :
    Shows operations (run operations ({} : PersistentStore)) :=
  shows_run fun _ isStart _ _ _ same => (storable.of_prefix isStart).fits same

/-- Behind every run a memory store has under a tag and a key exactly the fields put there, each with its last data. A
persistent store has the fields of all tags and keys that are joined alike, which without zero characters in the tags
are the same. -/
theorem fields_of_run (operations : List Operation) (tag key : String) :
    (∃ found, fields tag key (run operations ({} : MemoryStore)) = .ok found ∧
      ∀ field : String, found[field]? = lastPut Prod.mk (tag, key) operations field) ∧
    (Storable operations → ∃ found, fields tag key (run operations ({} : PersistentStore)) = .ok found ∧
      (∀ field : String, found[field]? = lastPut customKey (customKey tag key) operations field) ∧
      ('\x00' ∉ tag.toList → (∀ other otherKey field data, Operation.putField other otherKey field data ∈ operations →
          '\x00' ∉ other.toList) →
        ∀ field : String, found[field]? = lastPut Prod.mk (tag, key) operations field)) := by
  constructor
  · have shows : Shows operations (run operations ({} : MemoryStore)) := shows_run fun _ _ _ _ _ _ => trivial
    exact shows tag key
  · intro storable
    obtain ⟨found, read, same⟩ := storable.shows tag key
    refine ⟨found, read, same, fun nonzero others field => (same field).trans (lastPut_congr ?_)⟩
    intro other otherKey name data listed
    constructor
    · intro joined
      obtain ⟨rfl, rfl⟩ := PersistentStore.customKey_inj (others other otherKey name data listed) nonzero joined
      rfl
    · rintro ⟨⟩
      rfl

def iconPuts : List Operation :=
  [.putField "icons" "a\x00b" "small" [1], .addNode { type := "library", name := "a" },
    .putField "icons" "b" "small" [2], .clear, .putField "icons" "a\x00b" "small" [3]]

theorem fields_of_run_iconPuts : ∃ found,
    fields "icons" "a\x00b" (run iconPuts ({} : PersistentStore)) = .ok found ∧ found["small"]? = some [3] := by
  have puts {tag key field : String} {data : Bytes} (listed : Operation.putField tag key field data ∈ iconPuts) :
      tag = "icons" ∧ field = "small" ∧ data.length = 1 := by
    simp [iconPuts] at listed
    grind
  have storable : Storable iconPuts := by
    refine ⟨by decide, fun tag key field data listed => ?_⟩
    obtain ⟨-, rfl, length⟩ := puts listed
    have short : FieldMap.IsWord (Bytes.ofString "small").length := by decide
    exact ⟨short, by simp [length]⟩
  obtain ⟨found, read, -, exact⟩ := (fields_of_run iconPuts "icons" "a\x00b").2 storable
  refine ⟨found, read, ?_⟩
  rw [exact (by decide) fun tag key field data listed => (puts listed).1 ▸ by decide]
  decide

/-- Fields put under a tag with a zero character are found under another tag. -/
theorem fields_of_sharedSlot :
    let operations := [Operation.putField "a\x00b" "c" "field" [0x78]]
    lastPut Prod.mk ("a", "b\x00c") operations "field" = none ∧
    ∃ found, fields "a" "b\x00c" (run operations ({} : PersistentStore)) = .ok found ∧
      found["field"]? = some [0x78] := by
  intro operations
  have storable : Storable operations := by
    refine ⟨by decide, fun tag key field data listed => ?_⟩
    obtain ⟨-, -, rfl, rfl⟩ := Operation.putField.inj (List.mem_singleton.1 listed)
    exact ⟨by decide, by decide⟩
  obtain ⟨found, read, same⟩ := storable.shows "a" "b\x00c"
  refine ⟨by decide, found, read, ?_⟩
  rw [same]
  decide

end SupplyGraph.Engine
