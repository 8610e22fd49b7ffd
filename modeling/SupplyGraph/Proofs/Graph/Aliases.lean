import SupplyGraph.Proofs.Graph.Slots
import SupplyGraph.Proofs.Outcome
import Mathlib.Data.List.Induction

/-!
Alias tables are maps from the classes of a partition. A class is the set of a bound list, or a single key that is
not bound. As long as bound lists have the same keys or none in common, and a key is bound before it is set, a table
gives the answers of a function from classes to sets.
-/

namespace SupplyGraph.AliasTable

inductive Access
  | bind (keys : List NodeId)
  | set (key : NodeId) (value : IdSet)
  | get (key : NodeId)
  | modify (key : NodeId) (change : IdSet → IdSet)
  | unionInto (target source : NodeId)
  | sameSlot (key other : NodeId)
  | entries
  | size

inductive Reply
  | done
  | value (ids : IdSet)
  | same (answer : Bool)
  | entries (listed : List (NodeId × IdSet))
  | size (count : Nat)

def Access.run (hash : Bytes → Bytes) : Access → Update (AliasTable IdSet) Reply
  | .bind keys => do
    Update.write (·.bind hash keys)
    return .done
  | .set key value => do
    Update.write (·.set key value)
    return .done
  | .get key => return .value (← Update.read (AliasTable.get · key))
  | .modify key change => do
    AliasTable.modify key change
    return .done
  | .unionInto target source => do
    AliasTable.unionInto target source
    return .done
  | .sameSlot key other => return .same (← Update.read fun table => .ok (table.sameSlot key other))
  | .entries => return .entries (← Update.read fun table => .ok table.entries)
  | .size => return .size (← Update.read fun table => .ok table.size)

def replies {σ : Type} (run : Access → Update σ Reply) : List Access → σ → List (Outcome Reply) × σ
  | [], state => ([], state)
  | access :: later, state =>
    let (reply, after) := run access state
    let (rest, last) := replies run later after
    (reply :: rest, last)

/-! ## A map from classes -/

/-- The lists bound so far, and the values of the classes. -/
structure Classes where
  binds : List (List NodeId) := []
  value : IdSet → Option IdSet := fun _ => none

namespace Classes

def classOf (classes : Classes) (key : NodeId) : IdSet :=
  .ofList ((classes.binds.find? fun keys => key ∈ keys).getD [key])

def bound (classes : Classes) : List NodeId := classes.binds.flatten.eraseDups

def bind (classes : Classes) (keys : List NodeId) : Classes := { classes with binds := classes.binds ++ [keys] }

def get? (classes : Classes) (key : NodeId) : Option IdSet := classes.value (classes.classOf key)

def get (classes : Classes) (key : NodeId) : Outcome IdSet :=
  match classes.get? key with
  | some value => .ok value
  | none => .error (.keyNotBound key)

def set (classes : Classes) (key : NodeId) (value : IdSet) : Classes :=
  { classes with value := Function.update classes.value (classes.classOf key) (some value) }

def modify (classes : Classes) (key : NodeId) (change : IdSet → IdSet) : Outcome Classes := do
  return classes.set key (change (← classes.get key))

def unionInto (classes : Classes) (target source : NodeId) : Outcome Classes := do
  if classes.classOf target = classes.classOf source then return classes
  let added ← classes.get source
  classes.modify target (· ∪ added)

def entries (classes : Classes) : List (NodeId × IdSet) :=
  classes.bound.filterMap fun key => (classes.get? key).map (key, ·)

end Classes

/-- A change of the classes that fails leaves them as they are. -/
def Access.onClasses : Access → Update Classes Reply
  | .bind keys => do
    Update.write (·.bind keys)
    return .done
  | .set key value => do
    Update.write (·.set key value)
    return .done
  | .get key => return .value (← Update.read (Classes.get · key))
  | .modify key change => do
    Update.tryWrite (Classes.modify · key change)
    return .done
  | .unionInto target source => do
    Update.tryWrite (Classes.unionInto · target source)
    return .done
  | .sameSlot key other =>
    return .same (← Update.read fun classes => .ok (decide (classes.classOf key = classes.classOf other)))
  | .entries => return .entries (← Update.read fun classes => .ok classes.entries)
  | .size => return .size (← Update.read fun classes => .ok classes.bound.length)

/-! ## What may be bound and set -/

def boundLists : List Access → List (List NodeId)
  | [] => []
  | .bind keys :: later => keys :: boundLists later
  | _ :: later => boundLists later

def Apart (lists : List (List NodeId)) : Prop :=
  ∀ first ∈ lists, ∀ second ∈ lists, IdSet.ofList first = IdSet.ofList second ∨ ∀ key ∈ first, key ∉ second

/-- A key that is set is bound already, or it is not bound later either. -/
def SetsBound (bound : List NodeId) : List Access → Prop
  | [] => True
  | .bind keys :: later => SetsBound (bound ++ keys) later
  | .set key _ :: later => (key ∈ bound ∨ ∀ keys ∈ boundLists later, key ∉ keys) ∧ SetsBound bound later
  | _ :: later => SetsBound bound later

structure WellBound (accesses : List Access) : Prop where
  apart : Apart (boundLists accesses)
  boundFirst : SetsBound [] accesses

/-- The hash tells the lists apart that have different keys. -/
def CollisionFree (hash : Bytes → Bytes) (lists : List (List NodeId)) : Prop :=
  ∀ first ∈ lists, ∀ second ∈ lists, hash (words (.ofList first)) = hash (words (.ofList second)) →
    words (.ofList first) = words (.ofList second)

/-! ## Classes -/

namespace Classes

variable {classes : Classes} {keys : List NodeId} {key : NodeId}

theorem classOf_eq (apart : Apart classes.binds) (listed : keys ∈ classes.binds) (member : key ∈ keys) :
    classes.classOf key = .ofList keys := by
  obtain ⟨found, lookup⟩ : ∃ found, classes.binds.find? (fun keys => key ∈ keys) = some found := by
    apply Option.isSome_iff_exists.1
    rw [List.find?_isSome]
    exact ⟨keys, listed, by simpa using member⟩
  have inside : key ∈ found := by simpa using List.find?_some lookup
  rw [classOf, lookup, Option.getD_some]
  rcases apart found (List.mem_of_find?_eq_some lookup) keys listed with same | separate
  · exact same
  · exact absurd member (separate key inside)

theorem classOf_free (free : key ∉ classes.binds.flatten) : classes.classOf key = .ofList [key] := by
  have unlisted : classes.binds.find? (fun keys => key ∈ keys) = none := by
    rw [List.find?_eq_none]
    intro keys listed
    simpa using fun member => free (List.mem_flatten_of_mem listed member)
  rw [classOf, unlisted, Option.getD_none]

theorem mem_classOf (classes : Classes) (key : NodeId) : key ∈ classes.classOf key := by
  rw [classOf, IdSet.mem_ofList]
  cases lookup : classes.binds.find? (fun keys => key ∈ keys) with
  | none => exact List.mem_singleton_self key
  | some found => simpa using List.find?_some lookup

theorem exists_bound (apart : Apart classes.binds) (member : key ∈ classes.binds.flatten) :
    ∃ keys ∈ classes.binds, key ∈ keys ∧ classes.classOf key = .ofList keys := by
  obtain ⟨keys, listed, inside⟩ := List.mem_flatten.1 member
  exact ⟨keys, listed, inside, classOf_eq apart listed inside⟩

theorem classOf_bind (apart : Apart (classes.binds ++ [keys])) (key : NodeId) :
    (classes.bind keys).classOf key = if key ∈ keys then .ofList keys else classes.classOf key := by
  by_cases member : key ∈ keys
  · rw [if_pos member]
    exact classOf_eq apart (List.mem_append_right _ (List.mem_singleton_self keys)) member
  · simp [classOf, bind, member, List.find?_append]

theorem unionInto_eq {target source : NodeId} (apart : classes.classOf target ≠ classes.classOf source) :
    classes.unionInto target source =
      match classes.get? source, classes.get? target with
      | none, _ => .error (.keyNotBound source)
      | some _, none => .error (.keyNotBound target)
      | some added, some value => .ok (classes.set target (value ∪ added)) := by
  rw [unionInto, if_neg apart]
  unfold modify get
  cases classes.get? source <;> cases classes.get? target <;> rfl

theorem bound_iff {other : NodeId} (apart : Apart classes.binds) (same : classes.classOf key = classes.classOf other) :
    key ∈ classes.binds.flatten ↔ other ∈ classes.binds.flatten := by
  have half {key other : NodeId} (same : classes.classOf key = classes.classOf other)
      (member : key ∈ classes.binds.flatten) : other ∈ classes.binds.flatten := by
    obtain ⟨keys, listed, _, isClass⟩ := exists_bound apart member
    have inside := classes.mem_classOf other
    rw [← same, isClass, IdSet.mem_ofList] at inside
    exact List.mem_flatten_of_mem listed inside
  exact ⟨half same, half same.symm⟩

end Classes

/-! ## Keys in the order of their first binding -/

theorem eraseDups_concat (keys : List NodeId) (key : NodeId) :
    (keys ++ [key]).eraseDups = if key ∈ keys then keys.eraseDups else keys.eraseDups ++ [key] := by
  rw [List.eraseDups_append]
  by_cases member : key ∈ keys
  · simp [List.removeAll, member]
  · simp [List.removeAll, member, List.eraseDups_cons]

theorem nodup_eraseDups (keys : List NodeId) : keys.eraseDups.Nodup := by
  induction keys using List.reverseRecOn with
  | nil => exact List.nodup_nil
  | append_singleton keys key ih =>
      rw [eraseDups_concat]
      split
      · exact ih
      · rename_i new
        apply ih.append (List.nodup_singleton key)
        simpa using new

/-! ## Tables of classes -/

variable {α : Type}

theorem groups_set (table : AliasTable α) (key : NodeId) (value : α) : (table.set key value).groups = table.groups :=
  groups_put

theorem bound_set (table : AliasTable α) (key : NodeId) (value : α) : (table.set key value).bound = table.bound :=
  congrArg List.reverse boundReversed_put

theorem get?_set (table : AliasTable α) (key : NodeId) (value : α) (other : NodeId) :
    (table.set key value).get? other = if table.sameSlot key other then some value else table.get? other := by
  have slot : (table.set key value).slot other = table.slot other := by
    rw [AliasTable.slot, groups_set, AliasTable.slot]
  rw [get?, slot, set, content?_put, get?]
  simp only [sameSlot_eq_iff]

theorem bound_bindKeys_again (group : Bytes) (keys : List NodeId) {earlier : List NodeId} (table : AliasTable α)
    (known : ∀ key, table.groups.contains key ↔ key ∈ earlier) (bound : table.bound = earlier.eraseDups) :
    (keys.foldl (bindKey group) table).bound = (earlier ++ keys).eraseDups := by
  induction keys generalizing table earlier with
  | nil => simpa using bound
  | cons key keys ih =>
      rw [List.foldl_cons, List.append_cons]
      apply ih
      · intro other
        have same : compare key other = .eq ↔ other = key := by rw [Std.compare_eq_iff_eq, eq_comm]
        simp [bindKey, Std.TreeMap.contains_insert, known, same, or_comm]
      · have listed : (bindKey group table key).bound =
            if table.groups.contains key then table.bound else table.bound ++ [key] := by
          unfold bindKey AliasTable.bound
          split <;> simp
        rw [listed, eraseDups_concat, bound]
        simp [known]

structure Represents (hash : Bytes → Bytes) (table : AliasTable IdSet) (classes : Classes) (later : List Access) :
    Prop where
  apart : Apart (classes.binds ++ boundLists later)
  boundFirst : SetsBound classes.binds.flatten later
  distinct : CollisionFree hash (classes.binds ++ boundLists later)
  group : ∀ key, table.groups[key]? =
    if key ∈ classes.binds.flatten then some (hash (words (classes.classOf key))) else none
  read : ∀ key, table.get? key = classes.get? key
  fresh : ∀ keys ∈ boundLists later, .ofList keys ∉ classes.binds.map IdSet.ofList →
    table.content? (.group (hash (words (.ofList keys)))) = none ∧ classes.value (.ofList keys) = none
  bound : table.bound = classes.bound

namespace Represents

variable {hash : Bytes → Bytes} {table : AliasTable IdSet} {classes : Classes} {later : List Access}
variable {keys : List NodeId} {key other : NodeId}

theorem empty {accesses : List Access} (wellBound : WellBound accesses)
    (distinct : CollisionFree hash (boundLists accesses)) : Represents hash ∅ {} accesses := by
  constructor
  case apart => exact wellBound.apart
  case boundFirst => exact wellBound.boundFirst
  case distinct => exact distinct
  case group => exact fun key => Std.TreeMap.getElem?_emptyc
  case read => exact fun key => rfl
  case fresh => exact fun keys _ _ => ⟨Std.ExtTreeMap.getElem?_empty, rfl⟩
  case bound => rfl

theorem apart_binds (represents : Represents hash table classes later) : Apart classes.binds :=
  fun first listed second otherListed =>
    represents.apart first (List.mem_append_left _ listed) second (List.mem_append_left _ otherListed)

theorem slot_bound (represents : Represents hash table classes later) (bound : key ∈ classes.binds.flatten) :
    table.slot key = .group (hash (words (classes.classOf key))) := by
  rw [slot, represents.group, if_pos bound]

theorem slot_free (represents : Represents hash table classes later) (free : key ∉ classes.binds.flatten) :
    table.slot key = .own key := by
  rw [slot, represents.group, if_neg free]

theorem classOf_eq_of_hash (represents : Represents hash table classes later) (bound : key ∈ classes.binds.flatten)
    (listed : keys ∈ classes.binds ++ boundLists later)
    (same : hash (words (classes.classOf key)) = hash (words (.ofList keys))) : classes.classOf key = .ofList keys := by
  obtain ⟨before, old, -, isClass⟩ := Classes.exists_bound represents.apart_binds bound
  rw [isClass] at same ⊢
  exact words_injective (represents.distinct before (List.mem_append_left _ old) keys listed same)

theorem sameSlot_iff (represents : Represents hash table classes later) :
    table.sameSlot key other ↔ classes.classOf key = classes.classOf other := by
  have together (same : classes.classOf key = classes.classOf other) := Classes.bound_iff represents.apart_binds same
  rw [sameSlot_eq_iff]
  by_cases first : key ∈ classes.binds.flatten
  · by_cases second : other ∈ classes.binds.flatten
    · obtain ⟨keys, listed, -, isClass⟩ := Classes.exists_bound represents.apart_binds second
      rw [represents.slot_bound first, represents.slot_bound second, isClass]
      constructor
      · exact fun same => represents.classOf_eq_of_hash first (List.mem_append_left _ listed) (Slot.group.inj same)
      · exact fun same => congrArg (fun keys => Slot.group (hash (words keys))) same
    · rw [represents.slot_bound first, represents.slot_free second]
      exact ⟨nofun, fun same => absurd ((together same).1 first) second⟩
  · by_cases second : other ∈ classes.binds.flatten
    · rw [represents.slot_free first, represents.slot_bound second]
      exact ⟨nofun, fun same => absurd ((together same).2 second) first⟩
    · rw [represents.slot_free first, represents.slot_free second, Classes.classOf_free first,
        Classes.classOf_free second]
      constructor
      · exact fun same => congrArg (fun key => IdSet.ofList [key]) (Slot.own.inj same)
      · intro same
        have member : key ∈ IdSet.ofList [other] := same ▸ IdSet.mem_ofList.2 (List.mem_singleton_self key)
        simpa using member

theorem get_eq (represents : Represents hash table classes later) (key : NodeId) : table.get key = classes.get key := by
  rw [AliasTable.get, Classes.get, represents.read]
  cases classes.get? key <;> rfl

theorem entries_eq (represents : Represents hash table classes later) : table.entries = classes.entries := by
  rw [AliasTable.entries, Classes.entries, represents.bound]
  exact List.filterMap_congr fun key _ => by rw [represents.read]

theorem size_eq (represents : Represents hash table classes later) : table.size = classes.bound.length := by
  rw [← represents.bound, AliasTable.bound, List.length_reverse, AliasTable.size]

/-! ### Changes -/

theorem skip {access : Access} (represents : Represents hash table classes (access :: later))
    (same : boundLists (access :: later) = boundLists later) (boundFirst : SetsBound classes.binds.flatten later) :
    Represents hash table classes later := by
  constructor
  case apart => exact same ▸ represents.apart
  case boundFirst => exact boundFirst
  case distinct => exact same ▸ represents.distinct
  case group => exact represents.group
  case read => exact represents.read
  case fresh => exact same ▸ represents.fresh
  case bound => exact represents.bound

theorem set (represents : Represents hash table classes later) (value : IdSet)
    (allowed : ∀ keys ∈ boundLists later, .ofList keys ∉ classes.binds.map IdSet.ofList →
      classes.classOf key ≠ .ofList keys) :
    Represents hash (table.set key value) (classes.set key value) later := by
  constructor
  case apart => exact represents.apart
  case boundFirst => exact represents.boundFirst
  case distinct => exact represents.distinct
  case group => exact fun other => groups_set table key value ▸ represents.group other
  case bound => exact (bound_set table key value).trans represents.bound
  case read =>
    intro other
    change _ = Function.update classes.value (classes.classOf key) (some value) (classes.classOf other)
    rw [get?_set, represents.read]
    by_cases same : classes.classOf key = classes.classOf other
    · rw [if_pos (represents.sameSlot_iff.2 same), same, Function.update_self]
    · rw [if_neg fun slot => same (represents.sameSlot_iff.1 slot), Function.update_of_ne (Ne.symm same)]
      rfl
  case fresh =>
    -- The value goes to another class, so a list that is still to be bound has none.
    intro keys listed new
    have different := allowed keys listed new
    obtain ⟨unshared, none⟩ := represents.fresh keys listed new
    constructor
    · rw [AliasTable.set, content?_put, if_neg, unshared]
      intro same
      by_cases member : key ∈ classes.binds.flatten
      · rw [represents.slot_bound member] at same
        have inLater := List.mem_append_right classes.binds listed
        exact different (represents.classOf_eq_of_hash member inLater (Slot.group.inj same))
      · rw [represents.slot_free member] at same
        cases same
    · exact (Function.update_of_ne (Ne.symm different) _ _).trans none

theorem content?_again (represents : Represents hash table classes later)
    (again : IdSet.ofList keys ∈ classes.binds.map IdSet.ofList) (member : key ∈ keys) :
    table.content? (.group (hash (words (.ofList keys)))) = classes.value (.ofList keys) := by
  obtain ⟨before, listed, same⟩ := List.mem_map.1 again
  have inside : key ∈ before := by
    rw [← IdSet.mem_ofList, same, IdSet.mem_ofList]
    exact member
  have isClass : classes.classOf key = .ofList keys :=
    (Classes.classOf_eq represents.apart_binds listed inside).trans same
  have value := represents.read key
  rwa [AliasTable.get?, represents.slot_bound (List.mem_flatten_of_mem listed inside), Classes.get?, isClass] at value

theorem bind (represents : Represents hash table classes (.bind keys :: later)) :
    Represents hash (table.bind hash keys) (classes.bind keys) later := by
  have lists : (classes.binds ++ [keys]) ++ boundLists later = classes.binds ++ boundLists (.bind keys :: later) :=
    List.append_assoc ..
  have apart : Apart ((classes.binds ++ [keys]) ++ boundLists later) := lists ▸ represents.apart
  have boundApart : Apart (classes.binds ++ [keys]) := fun first listed second otherListed =>
    apart first (List.mem_append_left _ listed) second (List.mem_append_left _ otherListed)
  have classOf_bind := Classes.classOf_bind boundApart
  have flat : (classes.bind keys).binds.flatten = classes.binds.flatten ++ keys := by simp [Classes.bind]
  have groups (key : NodeId) : (table.bind hash keys).groups[key]? =
      if key ∈ keys then some (hash (words (.ofList keys))) else table.groups[key]? := groups_bindKeys _ keys table key
  have contents (slot : Slot) : (table.bind hash keys).content? slot = table.content? slot :=
    content?_bindKeys _ keys table slot
  constructor
  case apart => exact apart
  case boundFirst => exact flat ▸ represents.boundFirst
  case distinct => exact lists ▸ represents.distinct
  case group =>
    intro key
    rw [groups, flat, classOf_bind, represents.group]
    by_cases member : key ∈ keys <;> simp [member]
  case read =>
    intro key
    rw [AliasTable.get?, contents, Classes.get?, classOf_bind, AliasTable.slot, groups]
    by_cases member : key ∈ keys
    · rw [if_pos member, if_pos member]
      change table.content? (.group (hash (words (.ofList keys)))) = classes.value (.ofList keys)
      -- The class had its value before, or it is a new one and has none.
      by_cases again : IdSet.ofList keys ∈ classes.binds.map IdSet.ofList
      · exact represents.content?_again again member
      · obtain ⟨unshared, none⟩ := represents.fresh keys List.mem_cons_self again
        rw [unshared, none]
    · rw [if_neg member, if_neg member]
      exact represents.read key
  case fresh =>
    intro other listed new
    have before : IdSet.ofList other ∉ classes.binds.map IdSet.ofList := by
      intro old
      apply new
      rw [Classes.bind, List.map_append]
      exact List.mem_append_left _ old
    rw [contents]
    exact represents.fresh other (List.mem_cons_of_mem _ listed) before
  case bound =>
    rw [Classes.bound, flat]
    apply bound_bindKeys_again _ keys table _ represents.bound
    intro key
    rw [Std.TreeMap.contains_eq_isSome_getElem?, represents.group]
    by_cases member : key ∈ classes.binds.flatten <;> simp [member]

theorem set_present (represents : Represents hash table classes later) {value : IdSet}
    (present : classes.get? key = some value) (content : IdSet) :
    Represents hash (table.set key content) (classes.set key content) later := by
  refine represents.set content fun keys listed new same => ?_
  rw [Classes.get?, same, (represents.fresh keys listed new).2] at present
  cases present

theorem modify (represents : Represents hash table classes later) (key : NodeId) (change : IdSet → IdSet) :
    Update.Agrees (Represents hash · · later) (AliasTable.modify key change)
      (Update.tryWrite (Classes.modify · key change)) table classes := by
  have read := represents.get_eq key
  cases present : classes.get? key with
  | none =>
      have missing : classes.get key = .error (.keyNotBound key) := by rw [Classes.get, present]
      rw [missing] at read
      refine .intro (Update.bind_read_error (AliasTable.get · key) read) (Update.tryWrite_error ?_) represents
      rw [Classes.modify, missing]
      rfl
  | some value =>
      have found : classes.get key = .ok value := by rw [Classes.get, present]
      rw [found] at read
      refine .intro (modify_of_get read) (Update.tryWrite_ok ?_) (represents.set_present present (change value))
      rw [Classes.modify, found]
      rfl

theorem unionInto (represents : Represents hash table classes later) (target source : NodeId) :
    Update.Agrees (Represents hash · · later) (AliasTable.unionInto target source)
      (Update.tryWrite (Classes.unionInto · target source)) table classes := by
  by_cases same : classes.classOf target = classes.classOf source
  · have unchanged : classes.unionInto target source = .ok classes := if_pos same
    exact .intro (if_pos (represents.sameSlot_iff.2 same)) (Update.tryWrite_ok unchanged) represents
  · have ran := unionInto_eq fun slot => same (represents.sameSlot_iff.1 slot)
    have described := Classes.unionInto_eq same
    rw [represents.read, represents.read] at ran
    cases added : classes.get? source with
    | none =>
        rw [added] at ran described
        exact .intro ran (Update.tryWrite_error described) represents
    | some extra =>
        cases present : classes.get? target with
        | none =>
            rw [added, present] at ran described
            exact .intro ran (Update.tryWrite_error described) represents
        | some value =>
            rw [added, present] at ran described
            exact .intro ran (Update.tryWrite_ok described) (represents.set_present present _)

theorem read_agrees {β : Type} (represents : Represents hash table classes later)
    {query : AliasTable IdSet → Outcome β} {described : Classes → Outcome β} (same : query table = described classes) :
    Update.Agrees (Represents hash · · later) (Update.read query) (Update.read described) table classes :=
  ⟨same, represents⟩

theorem access {access : Access} (represents : Represents hash table classes (access :: later)) :
    Update.Agrees (Represents hash · · later) (access.run hash) access.onClasses table classes := by
  cases access with
  | bind keys => exact (Update.Agrees.write represents.bind).returning _
  | set key value =>
      obtain ⟨early, boundFirst⟩ := represents.boundFirst
      have kept := represents.skip rfl boundFirst
      refine (Update.Agrees.write (kept.set value fun keys listed new same => ?_)).returning _
      have member : key ∈ keys := by
        rw [← IdSet.mem_ofList, ← same]
        exact classes.mem_classOf key
      -- The class of the key is bound already, or the key is in no later list.
      rcases early with bound | free
      · obtain ⟨before, old, _, isClass⟩ := Classes.exists_bound represents.apart_binds bound
        rw [← same, isClass] at new
        exact new (List.mem_map_of_mem old)
      · exact free keys listed member
  | get key => exact ((represents.skip rfl represents.boundFirst).read_agrees (represents.get_eq key)).returning _
  | modify key change => exact ((represents.skip rfl represents.boundFirst).modify key change).returning _
  | unionInto target source =>
      exact ((represents.skip rfl represents.boundFirst).unionInto target source).returning _
  | sameSlot key other =>
      have same : table.sameSlot key other = decide (classes.classOf key = classes.classOf other) := by
        rw [Bool.eq_iff_iff, represents.sameSlot_iff, decide_eq_true_iff]
      exact ((represents.skip rfl represents.boundFirst).read_agrees (congrArg Except.ok same)).returning _
  | entries =>
      have kept := represents.skip rfl represents.boundFirst
      exact (kept.read_agrees (congrArg Except.ok kept.entries_eq)).returning _
  | size =>
      have kept := represents.skip rfl represents.boundFirst
      exact (kept.read_agrees (congrArg Except.ok kept.size_eq)).returning _

theorem replies {accesses : List Access} (represents : Represents hash table classes accesses) :
    (AliasTable.replies (Access.run hash) accesses table).1 =
        (AliasTable.replies Access.onClasses accesses classes).1 ∧
      Represents hash (AliasTable.replies (Access.run hash) accesses table).2
        (AliasTable.replies Access.onClasses accesses classes).2 [] := by
  induction accesses generalizing table classes with
  | nil => exact ⟨rfl, represents⟩
  | cons access later ih =>
      obtain ⟨reply, kept⟩ := represents.access
      obtain ⟨rest, last⟩ := ih kept
      exact ⟨congrArg₂ List.cons reply rest, last⟩

end Represents

namespace Classes

theorem binds_modify {classes changed : Classes} {key : NodeId} {change : IdSet → IdSet}
    (ran : classes.modify key change = .ok changed) : changed.binds = classes.binds := by
  obtain ⟨value, -, ran⟩ := bind_eq_ok.1 ran
  cases ran
  rfl

theorem binds_unionInto {classes changed : Classes} {target source : NodeId}
    (ran : classes.unionInto target source = .ok changed) : changed.binds = classes.binds := by
  unfold unionInto at ran
  split at ran
  · cases ran
    rfl
  · obtain ⟨added, -, ran⟩ := bind_eq_ok.1 ran
    exact binds_modify ran

theorem binds_tryWrite {classes : Classes} {change : Classes → Outcome Classes}
    (kept : ∀ changed, change classes = .ok changed → changed.binds = classes.binds) :
    (Update.tryWrite change classes).2.binds = classes.binds := by
  cases ran : change classes with
  | ok changed =>
      rw [Update.tryWrite_ok ran]
      exact kept changed ran
  | error failure => rw [Update.tryWrite_error ran]

end Classes

theorem binds_onClasses (access : Access) (classes : Classes) (later : List Access) :
    (access.onClasses classes).2.binds ++ boundLists later = classes.binds ++ boundLists (access :: later) := by
  cases access with
  | bind keys => exact List.append_assoc ..
  | modify key change =>
      rw [Access.onClasses, Update.bind_pure, Classes.binds_tryWrite fun _ => Classes.binds_modify]
      rfl
  | unionInto target source =>
      rw [Access.onClasses, Update.bind_pure, Classes.binds_tryWrite fun _ => Classes.binds_unionInto]
      rfl
  | set key value => rfl
  | get key =>
      rw [Access.onClasses, Update.bind_pure]
      rfl
  | sameSlot key other => rfl
  | entries => rfl
  | size => rfl

theorem binds_replies (accesses : List Access) (classes : Classes) :
    (replies Access.onClasses accesses classes).2.binds = classes.binds ++ boundLists accesses := by
  induction accesses generalizing classes with
  | nil => exact (List.append_nil _).symm
  | cons access later ih => exact (ih _).trans (binds_onClasses access classes later)

/-! ## The whole table -/

/-- The table after the accesses, described by the values of the classes. -/
structure Shares (accesses : List Access) (table : AliasTable IdSet) (classes : Classes) : Prop where
  classOf_bound : ∀ keys ∈ boundLists accesses, ∀ key ∈ keys, classes.classOf key = .ofList keys
  classOf_free : ∀ key, (∀ keys ∈ boundLists accesses, key ∉ keys) → classes.classOf key = .singleton key
  get? : ∀ key, table.get? key = classes.value (classes.classOf key)
  sameSlot : ∀ key other, table.sameSlot key other ↔ classes.classOf key = classes.classOf other
  get?_set : ∀ key value other, (table.set key value).get? other =
    if classes.classOf key = classes.classOf other then some value else table.get? other
  unionInto_same : ∀ target source, classes.classOf target = classes.classOf source →
    AliasTable.unionInto target source table = (.ok (), table)
  unionInto_no_source : ∀ target source, classes.classOf target ≠ classes.classOf source →
    table.get? source = none → AliasTable.unionInto target source table = (.error (.keyNotBound source), table)
  unionInto_no_target : ∀ target source added, classes.classOf target ≠ classes.classOf source →
    table.get? source = some added → table.get? target = none →
    AliasTable.unionInto target source table = (.error (.keyNotBound target), table)
  unionInto_apart : ∀ target source added value, classes.classOf target ≠ classes.classOf source →
    table.get? source = some added → table.get? target = some value →
    AliasTable.unionInto target source table = (.ok (), table.set target (value ∪ added))
  entries : table.entries =
    (boundLists accesses).flatten.eraseDups.filterMap fun key => (table.get? key).map (key, ·)
  nodup_entries : (table.entries.map (·.1)).Nodup
  size : table.size = (boundLists accesses).flatten.eraseDups.length

theorem keys_entries (table : AliasTable α) :
    table.entries.map (·.1) = table.bound.filter fun key => (table.get? key).isSome := by
  rw [entries, List.map_filterMap, ← List.filterMap_eq_filter]
  apply List.filterMap_congr
  intro key _
  cases value : table.get? key <;> simp [Option.guard, value]

theorem Represents.shares {hash : Bytes → Bytes} {accesses : List Access} {table : AliasTable IdSet} {classes : Classes}
    (represents : Represents hash table classes []) (binds : classes.binds = boundLists accesses) :
    Shares accesses table classes := by
  have slots (key other : NodeId) : table.sameSlot key other ↔ classes.classOf key = classes.classOf other :=
    represents.sameSlot_iff
  constructor
  case classOf_bound =>
    rw [← binds]
    exact fun keys listed key member => Classes.classOf_eq represents.apart_binds listed member
  case classOf_free =>
    intro key free
    rw [← binds] at free
    have unbound : key ∉ classes.binds.flatten := by simpa using free
    rw [Classes.classOf_free unbound]
    exact IdSet.ext fun id => by simp
  case get? => exact represents.read
  case sameSlot => exact slots
  case get?_set =>
    intro key value other
    rw [AliasTable.get?_set]
    simp only [slots]
  case unionInto_same =>
    intro target source same
    exact if_pos ((slots target source).2 same)
  case unionInto_no_source =>
    intro target source apart missing
    rw [unionInto_eq fun slot => apart ((slots target source).1 slot), missing]
  case unionInto_no_target =>
    intro target source added apart found missing
    rw [unionInto_eq fun slot => apart ((slots target source).1 slot), found, missing]
  case unionInto_apart =>
    intro target source added value apart found present
    rw [unionInto_eq fun slot => apart ((slots target source).1 slot), found, present]
  case entries => rw [AliasTable.entries, represents.bound, Classes.bound, binds]
  case nodup_entries =>
    rw [keys_entries, represents.bound]
    exact (nodup_eraseDups _).filter _
  case size => rw [represents.size_eq, Classes.bound, binds]

/-- Behind any accesses a table answers as the map from classes does, a failed union included, and holds what the map
holds, if the hash tells the bound sets apart. -/
theorem replies_classes (hash : Bytes → Bytes) (accesses : List Access) (wellBound : WellBound accesses)
    (distinct : CollisionFree hash (boundLists accesses)) :
    (replies (Access.run hash) accesses ∅).1 = (replies Access.onClasses accesses {}).1 ∧
      Shares accesses (replies (Access.run hash) accesses ∅).2 (replies Access.onClasses accesses {}).2 := by
  obtain ⟨same, represents⟩ := (Represents.empty wellBound distinct).replies
  exact ⟨same, represents.shares (binds_replies accesses {})⟩

def sharing : List Access :=
  [.bind [3, 1, 3], .set 1 (.singleton 7), .bind [1, 3], .bind [2], .set 9 (.singleton 8), .unionInto 3 9,
    .unionInto 2 1, .get 1, .sameSlot 3 1, .entries]

/-- The BLAKE3 digests of the two groups of `sharing`. -/
def sharingHash (bytes : Bytes) : Bytes :=
  if bytes = [1, 0, 0, 0, 3, 0, 0, 0] then
    [30, 171, 151, 82, 145, 226, 181, 142, 71, 4, 56, 220, 152, 210, 104, 82, 177, 52, 109, 225, 129, 105, 217, 200,
      11, 113, 178, 227, 138, 136, 39, 170]
  else if bytes = [2, 0, 0, 0] then
    [240, 59, 248, 111, 121, 209, 33, 203, 253, 119, 77, 236, 74, 101, 145, 46, 153, 245, 241, 124, 51, 133, 43, 188,
      69, 232, 25, 22, 14, 98, 181, 59]
  else []

theorem replies_classes_sharing : WellBound sharing ∧ CollisionFree sharingHash (boundLists sharing) ∧
    (replies (Access.run sharingHash) sharing ∅).1 = (replies Access.onClasses sharing {}).1 ∧
    Shares sharing (replies (Access.run sharingHash) sharing ∅).2 (replies Access.onClasses sharing {}).2 := by
  have wellBound : WellBound sharing := by
    constructor
    case apart =>
      have again : IdSet.ofList [3, 1, 3] = IdSet.ofList [1, 3] := IdSet.ext fun id => by grind [IdSet.mem_ofList]
      simp [sharing, Apart, boundLists, again]
    case boundFirst => simp [sharing, SetsBound, boundLists]
  have distinct : CollisionFree sharingHash (boundLists sharing) := by
    have pair : words (.ofList [3, 1, 3]) = [1, 0, 0, 0, 3, 0, 0, 0] := by decide +kernel
    have again : words (.ofList [1, 3]) = [1, 0, 0, 0, 3, 0, 0, 0] := by decide +kernel
    have one : words (.ofList [2]) = [2, 0, 0, 0] := by decide +kernel
    simp [CollisionFree, sharing, boundLists, pair, again, one, sharingHash]
  exact ⟨wellBound, distinct, replies_classes sharingHash sharing wellBound distinct⟩

end SupplyGraph.AliasTable
