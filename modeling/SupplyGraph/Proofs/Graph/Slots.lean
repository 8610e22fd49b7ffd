import SupplyGraph.Proofs.Format.Bytes
import SupplyGraph.Proofs.Graph.Components
import SupplyGraph.Proofs.Update
import SupplyGraph.Graph.AliasTable
import Mathlib.Data.List.Basic

/-!
Alias tables whose groups are the parts of a partition. Such a table is a function from the representatives of
the parts: all members of a part read and write its value.
-/

namespace SupplyGraph

namespace AliasTable

theorem flatMap_littleEndian_injective {keys others : List NodeId}
    (same : keys.flatMap (fun key => Bytes.littleEndian 4 key.toNat) =
      others.flatMap fun key => Bytes.littleEndian 4 key.toNat) : keys = others := by
  induction keys generalizing others with
  | nil =>
      cases others with
      | nil => rfl
      | cons other others => cases same
  | cons key keys ih =>
      cases others with
      | nil => cases same
      | cons other others =>
          obtain ⟨first, rest⟩ := List.append_inj same (by simp)
          have number := congrArg Bytes.ofLittleEndian first
          rw [Bytes.ofLittleEndian_of_lt key.toNat_lt, Bytes.ofLittleEndian_of_lt other.toNat_lt] at number
          rw [UInt32.toNat_inj.1 number, ih rest]

theorem words_injective {keys others : IdSet} (same : words keys = words others) : keys = others :=
  IdSet.ext fun key => by rw [IdSet.mem_def, flatMap_littleEndian_injective same, IdSet.mem_def]

variable {α : Type} {table : AliasTable α} {slot other : Slot} {value : α}

theorem content?_put :
    (table.put value slot).content? other = if slot = other then some value else table.content? other := by
  cases slot <;> cases other <;> simp [put, content?, Std.ExtTreeMap.getElem?_insert]

theorem content?_drop : (table.drop slot).content? other = if slot = other then none else table.content? other := by
  cases slot <;> cases other <;> simp [drop, content?, Std.ExtTreeMap.getElem?_erase]

@[simp] theorem groups_put : (table.put value slot).groups = table.groups := by cases slot <;> rfl

@[simp] theorem groups_drop : (table.drop slot).groups = table.groups := by cases slot <;> rfl

@[simp] theorem boundReversed_put : (table.put value slot).boundReversed = table.boundReversed := by cases slot <;> rfl

@[simp] theorem boundReversed_drop : (table.drop slot).boundReversed = table.boundReversed := by cases slot <;> rfl

theorem eq_of_contents {first second : AliasTable α} (groups : first.groups = second.groups)
    (bound : first.boundReversed = second.boundReversed)
    (contents : ∀ slot, first.content? slot = second.content? slot) : first = second := by
  obtain ⟨groups, shared, single, bound⟩ := first
  obtain ⟨_, otherShared, otherSingle, _⟩ := second
  obtain rfl := groups
  obtain rfl := bound
  have sameShared : shared = otherShared := Std.ExtTreeMap.ext_getElem? fun digest => contents (.group digest)
  have sameSingle : single = otherSingle := Std.ExtTreeMap.ext_getElem? fun key => contents (.own key)
  rw [sameShared, sameSingle]

theorem put_drop (present : table.content? slot = some value) : (table.drop slot).put value slot = table := by
  refine eq_of_contents (by simp) (by simp) fun other => ?_
  rw [content?_put, content?_drop]
  split
  next same => rw [← same, present]
  next => rfl

theorem put_put_drop {content : α} (apart : slot ≠ other) (present : table.content? slot = some value) :
    ((table.drop slot).put content other).put value slot = table.put content other := by
  refine eq_of_contents (by simp) (by simp) fun third => ?_
  simp only [content?_put, content?_drop]
  split
  next same => rw [← same, if_neg (Ne.symm apart), present]
  next => rfl

theorem sameSlot_eq_iff {key other : NodeId} : table.sameSlot key other ↔ table.slot key = table.slot other :=
  decide_eq_true_iff

theorem modify_of_get {key : NodeId} {change : α → α} (found : table.get key = .ok value) :
    modify key change table = (.ok (), table.set key (change value)) :=
  Update.bind_read (AliasTable.get · key) found

theorem unionInto_eq {table : AliasTable IdSet} {target source : NodeId} (apart : ¬table.sameSlot target source) :
    unionInto target source table =
      match table.get? source, table.get? target with
      | none, _ => (.error (.keyNotBound source), table)
      | some _, none => (.error (.keyNotBound target), table)
      | some added, some value => (.ok (), table.set target (value ∪ added)) := by
  have different : table.slot source ≠ table.slot target := fun same => apart (sameSlot_eq_iff.2 same.symm)
  rw [unionInto, if_neg apart]
  cases present : table.get? source with
  | none => rfl
  | some added =>
      have untouched : (table.drop (table.slot source)).content? (table.slot target) = table.get? target := by
        rw [content?_drop, if_neg different, AliasTable.get?]
      dsimp only
      rw [untouched]
      cases table.get? target with
      | none => exact congrArg _ (put_drop present)
      | some value => exact congrArg _ (put_put_drop different present)

end AliasTable

structure Partition (parts : List (NodeId × List NodeId)) : Prop where
  head_mem : ∀ part ∈ parts, part.1 ∈ part.2
  nodup : ∀ part ∈ parts, part.2.Nodup
  apart : parts.Pairwise fun part other => ∀ id ∈ part.2, id ∉ other.2

namespace Partition

variable {parts : List (NodeId × List NodeId)} {part other : NodeId × List NodeId} {id : NodeId}

theorem eq_of_mem (partition : Partition parts) (listed : part ∈ parts) (otherListed : other ∈ parts)
    (member : id ∈ part.2) (otherMember : id ∈ other.2) : part = other := by
  have same : ∀ first ∈ parts, ∀ second ∈ parts, id ∈ first.2 → id ∈ second.2 → first = second := by
    refine List.Pairwise.forall_of_forall_of_flip ?_ ?_ ?_
    · exact fun part _ _ _ => rfl
    · exact partition.apart.imp fun separate inside outside => absurd outside (separate id inside)
    · exact partition.apart.imp fun separate outside inside => absurd outside (separate id inside)
  exact same part listed other otherListed member otherMember

theorem place_eq (partition : Partition parts) {place otherPlace : Nat} (here : parts[place]? = some part)
    (there : parts[otherPlace]? = some other) (member : id ∈ part.2) (otherMember : id ∈ other.2) :
    place = otherPlace := by
  obtain ⟨bound, rfl⟩ := List.getElem?_eq_some_iff.1 here
  obtain ⟨otherBound, rfl⟩ := List.getElem?_eq_some_iff.1 there
  have apart := List.pairwise_iff_getElem.1 partition.apart
  rcases Nat.lt_trichotomy place otherPlace with earlier | same | later
  · exact absurd otherMember (apart place otherPlace bound otherBound earlier id member)
  · exact same
  · exact absurd member (apart otherPlace place otherBound bound later id otherMember)

theorem eq_of_head (partition : Partition parts) (listed : part ∈ parts) (otherListed : other ∈ parts)
    (same : part.1 = other.1) : part = other :=
  partition.eq_of_mem listed otherListed (partition.head_mem part listed) (same ▸ partition.head_mem other otherListed)

theorem eq_of_group (partition : Partition parts) (listed : part ∈ parts) (otherListed : other ∈ parts)
    (same : AliasTable.words (.ofList part.2) = AliasTable.words (.ofList other.2)) :
    part = other := by
  refine partition.eq_of_mem listed otherListed (partition.head_mem part listed) ?_
  rw [← IdSet.mem_ofList, ← AliasTable.words_injective same, IdSet.mem_ofList]
  exact partition.head_mem part listed

theorem fresh_of_append {earlier later : List (NodeId × List NodeId)}
    (partition : Partition (earlier ++ part :: later))
    (listed : other ∈ earlier) (member : id ∈ part.2) : id ∉ other.2 := by
  intro otherMember
  exact (List.pairwise_append.1 partition.apart).2.2 other listed part (List.mem_cons_self ..) id otherMember member

end Partition

namespace AliasTable

variable {α : Type} {table : AliasTable α} {parts : List (NodeId × List NodeId)} {value : NodeId → α}
variable {part other : NodeId × List NodeId} {key : NodeId}

structure Tabulates (table : AliasTable α) (parts : List (NodeId × List NodeId)) (value : NodeId → α) : Prop where
  group : ∀ part ∈ parts, ∀ key ∈ part.2, table.groups[key]? = some (words (.ofList part.2))
  free : ∀ key, (∀ part ∈ parts, key ∉ part.2) → table.groups[key]? = none
  content : ∀ part ∈ parts, table.content? (.group (words (.ofList part.2))) = some (value part.1)
  bound : table.bound = parts.flatMap (·.2)

namespace Tabulates

theorem slot (tabulates : table.Tabulates parts value) (listed : part ∈ parts) (member : key ∈ part.2) :
    table.slot key = .group (words (.ofList part.2)) := by
  rw [AliasTable.slot, tabulates.group part listed key member]

theorem get? (tabulates : table.Tabulates parts value) (listed : part ∈ parts) (member : key ∈ part.2) :
    table.get? key = some (value part.1) := by
  rw [AliasTable.get?, tabulates.slot listed member]
  exact tabulates.content part listed

theorem get (tabulates : table.Tabulates parts value) (listed : part ∈ parts) (member : key ∈ part.2) :
    table.get key = .ok (value part.1) := by
  rw [AliasTable.get, tabulates.get? listed member]

theorem slot_eq_iff (partition : Partition parts) (listed : part ∈ parts) (otherListed : other ∈ parts) :
    Slot.group (words (.ofList part.2)) = .group (words (.ofList other.2)) ↔ part = other := by
  constructor
  · exact fun same => partition.eq_of_group listed otherListed (Slot.group.inj same)
  · rintro rfl
    rfl

theorem set (tabulates : table.Tabulates parts value) (partition : Partition parts) (listed : part ∈ parts)
    (member : key ∈ part.2) (content : α) :
    (table.set key content).Tabulates parts (Function.update value part.1 content) := by
  rw [AliasTable.set, tabulates.slot listed member]
  constructor
  case group => exact tabulates.group
  case free => exact tabulates.free
  case bound => exact tabulates.bound
  case content =>
    intro other otherListed
    rw [content?_put]
    by_cases equal : part = other
    · subst equal
      simp
    · have apart : other.1 ≠ part.1 := fun same => equal (partition.eq_of_head listed otherListed same.symm)
      rw [if_neg fun same => equal ((slot_eq_iff partition listed otherListed).1 same), Function.update_of_ne apart]
      exact tabulates.content other otherListed

theorem modify (tabulates : table.Tabulates parts value) (partition : Partition parts) (listed : part ∈ parts)
    (member : key ∈ part.2) (change : α → α) :
    ∃ changed, AliasTable.modify key change table = (.ok (), changed) ∧
      changed.Tabulates parts (Function.update value part.1 (change (value part.1))) :=
  ⟨_, modify_of_get (tabulates.get listed member), tabulates.set partition listed member _⟩

theorem sameSlot_iff (tabulates : table.Tabulates parts value) (partition : Partition parts) (listed : part ∈ parts)
    (otherListed : other ∈ parts) {otherKey : NodeId} (member : key ∈ part.2) (otherMember : otherKey ∈ other.2) :
    table.sameSlot key otherKey ↔ part = other := by
  rw [sameSlot_eq_iff, tabulates.slot listed member, tabulates.slot otherListed otherMember]
  exact slot_eq_iff partition listed otherListed

theorem unionInto {table : AliasTable IdSet} {value : NodeId → IdSet} (tabulates : table.Tabulates parts value)
    (partition : Partition parts) (listed : part ∈ parts) (otherListed : other ∈ parts) {otherKey : NodeId}
    (member : key ∈ part.2) (otherMember : otherKey ∈ other.2) (different : part ≠ other) :
    ∃ merged, AliasTable.unionInto key otherKey table = (.ok (), merged) ∧
      merged.Tabulates parts (Function.update value part.1 (value part.1 ∪ value other.1)) := by
  have apart : ¬table.sameSlot key otherKey := by
    rw [tabulates.sameSlot_iff partition listed otherListed member otherMember]
    exact different
  refine ⟨_, ?_, tabulates.set partition listed member (value part.1 ∪ value other.1)⟩
  rw [unionInto_eq apart, tabulates.get? otherListed otherMember, tabulates.get? listed member]

theorem entries (tabulates : table.Tabulates parts value) :
    table.entries = parts.flatMap fun part => part.2.map fun key => (key, value part.1) := by
  rw [AliasTable.entries, tabulates.bound, List.filterMap_flatMap]
  refine List.flatMap_congr fun part listed => ?_
  rw [← List.filterMap_eq_map]
  refine List.filterMap_congr fun key member => ?_
  rw [tabulates.get? listed member]
  rfl

end Tabulates

theorem groups_bindKeys (group : Bytes) (keys : List NodeId) (table : AliasTable α) (other : NodeId) :
    (keys.foldl (bindKey group) table).groups[other]? = if other ∈ keys then some group else table.groups[other]? := by
  induction keys generalizing table with
  | nil => simp
  | cons key keys ih =>
      rw [List.foldl_cons, ih]
      by_cases later : other ∈ keys
      · simp [later]
      · by_cases equal : key = other
        · simp [equal, bindKey, later]
        · simp [bindKey, later, Ne.symm equal, Std.TreeMap.getElem?_insert, equal]

theorem bound_bindKeys (group : Bytes) {keys : List NodeId} (table : AliasTable α) (nodup : keys.Nodup)
    (fresh : ∀ key ∈ keys, table.groups[key]? = none) :
    (keys.foldl (bindKey group) table).bound = table.bound ++ keys := by
  induction keys generalizing table with
  | nil => simp
  | cons key keys ih =>
      obtain ⟨once, nodup⟩ := List.nodup_cons.1 nodup
      have unbound : table.groups.contains key = false := by
        rw [Std.TreeMap.contains_eq_isSome_getElem?, fresh key (List.mem_cons_self ..)]
        rfl
      rw [List.foldl_cons, ih _ nodup]
      · simp [bindKey, bound, unbound]
      · intro other member
        have different : key ≠ other := fun equal => once (equal ▸ member)
        simp [bindKey, Std.TreeMap.getElem?_insert, different, fresh other (List.mem_cons_of_mem _ member)]

theorem content?_bindKeys (group : Bytes) (keys : List NodeId) (table : AliasTable α) (slot : Slot) :
    (keys.foldl (bindKey group) table).content? slot = table.content? slot := by
  induction keys generalizing table with
  | nil => rfl
  | cons key keys ih =>
      rw [List.foldl_cons, ih]
      cases slot <;> rfl

namespace Tabulates

theorem empty : (∅ : AliasTable α).Tabulates [] value := by
  constructor
  case group => exact nofun
  case free => exact fun key _ => Std.TreeMap.getElem?_emptyc
  case content => exact nofun
  case bound => rfl

theorem add_part (tabulates : table.Tabulates parts value) {later : List (NodeId × List NodeId)}
    (partition : Partition (parts ++ part :: later)) :
    ((table.bind id part.2).set part.1 (value part.1)).Tabulates (parts ++ [part]) value := by
  have listed : part ∈ parts ++ part :: later := by simp
  have head : part.1 ∈ part.2 := partition.head_mem part listed
  have groups (key : NodeId) : (table.bind id part.2).groups[key]? =
      if key ∈ part.2 then some (words (.ofList part.2)) else table.groups[key]? :=
    groups_bindKeys _ part.2 table key
  have unbound : ∀ key ∈ part.2, table.groups[key]? = none :=
    fun key member => tabulates.free key fun other otherListed => partition.fresh_of_append otherListed member
  have slot : (table.bind id part.2).slot part.1 = .group (words (.ofList part.2)) := by
    rw [AliasTable.slot, groups part.1, if_pos head]
  rw [AliasTable.set, slot]
  constructor
  case group =>
    intro other otherListed key member
    rw [groups_put, groups key]
    rcases List.mem_append.1 otherListed with earlier | last
    · rw [if_neg fun inside => partition.fresh_of_append earlier inside member]
      exact tabulates.group other earlier key member
    · rw [List.mem_singleton.1 last] at member ⊢
      rw [if_pos member]
  case free =>
    intro key outside
    rw [groups_put, groups key, if_neg (outside part (by simp))]
    exact tabulates.free key fun other earlier => outside other (List.mem_append_left _ earlier)
  case content =>
    intro other otherListed
    rw [content?_put, bind, content?_bindKeys]
    rcases List.mem_append.1 otherListed with earlier | last
    · rw [if_neg fun same => ?_]
      · exact tabulates.content other earlier
      · have equal := (slot_eq_iff partition listed (List.mem_append_left _ earlier)).1 same
        exact partition.fresh_of_append earlier head (equal ▸ head)
    · rw [List.mem_singleton.1 last, if_pos rfl]
  case bound =>
    have bound : (table.bind id part.2).bound = table.bound ++ part.2 :=
      bound_bindKeys _ table (partition.nodup part listed) unbound
    rw [AliasTable.bound, boundReversed_put]
    change (table.bind id part.2).bound = _
    rw [bound, tabulates.bound, List.flatMap_append, List.flatMap_singleton]

theorem add_parts (tabulates : table.Tabulates parts value) {later : List (NodeId × List NodeId)}
    (partition : Partition (parts ++ later)) {content : NodeId × List NodeId → α}
    (contents : ∀ part ∈ later, content part = value part.1) :
    Tabulates (later.foldl (fun table part => (table.bind id part.2).set part.1 (content part)) table)
      (parts ++ later) value := by
  induction later generalizing table parts with
  | nil => simpa using tabulates
  | cons part later ih =>
      have added := tabulates.add_part partition
      rw [← contents part (List.mem_cons_self ..)] at added
      have result := ih added (by simpa using partition)
        fun other member => contents other (List.mem_cons_of_mem _ member)
      simpa using result

theorem of_parts (partition : Partition parts) {content : NodeId × List NodeId → α}
    (contents : ∀ part ∈ parts, content part = value part.1) :
    Tabulates (parts.foldl (fun table part => (table.bind id part.2).set part.1 (content part)) ∅) parts value :=
  empty.add_parts partition contents

end Tabulates

end AliasTable

namespace Components.Divides

variable {components : Components} {known : NodeId → Prop} {edge : NodeId → NodeId → Prop}

theorem partition (divides : components.Divides known edge) : Partition components.toList := by
  constructor
  case head_mem => exact fun part listed => divides.head_mem listed
  case nodup => exact divides.members_nodup
  case apart => exact divides.apart

theorem members_eq (divides : components.Divides known edge) {part : NodeId × List NodeId}
    (listed : part ∈ components.toList) : components.members part.1 = part.2 := by
  obtain ⟨found, lookup⟩ : ∃ members, components.toList.lookup part.1 = some members := by
    rw [← Option.isSome_iff_exists, List.lookup_isSome_iff]
    exact ⟨part, listed, BEq.rfl⟩
  have other : (part.1, found) ∈ components.toList := by
    obtain ⟨before, after, split, -⟩ := List.lookup_eq_some_iff.1 lookup
    rw [split]
    simp
  have equal : (part.1, found) = part := divides.partition.eq_of_head other listed rfl
  rw [members, lookup, ← equal]
  rfl

end Components.Divides

end SupplyGraph
