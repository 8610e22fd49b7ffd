import SupplyGraph.Bytes
import SupplyGraph.Failure
import Std.Data.ExtTreeMap
import Std.Data.TreeMap

/-!
A table in which several keys share one value. Binding a list of keys makes them aliases of the slot that
the hash of their set names; a key that is not bound has a slot of its own.
-/

namespace SupplyGraph

structure AliasTable (α : Type) where
  groups : Std.TreeMap NodeId Bytes := ∅
  shared : Std.ExtTreeMap Bytes α := ∅
  single : Std.ExtTreeMap NodeId α := ∅
  boundReversed : List NodeId := []

namespace AliasTable

inductive Slot
  | group (digest : Bytes)
  | own (key : NodeId)
deriving DecidableEq

variable {α : Type}

instance : EmptyCollection (AliasTable α) := ⟨{}⟩

/-- The keys as words, the least first. -/
def words (keys : IdSet) : Bytes := keys.toList.flatMap fun key => Bytes.littleEndian 4 key.toNat

def bindKey (group : Bytes) (table : AliasTable α) (key : NodeId) : AliasTable α :=
  { table with
    groups := table.groups.insert key group
    boundReversed := if table.groups.contains key then table.boundReversed else key :: table.boundReversed }

def bind (hash : Bytes → Bytes) (table : AliasTable α) (keys : List NodeId) : AliasTable α :=
  keys.foldl (bindKey (hash (words (.ofList keys)))) table

/-- The bound keys in the order in which they were first bound. -/
def bound (table : AliasTable α) : List NodeId := table.boundReversed.reverse

def size (table : AliasTable α) : Nat := table.boundReversed.length

def slot (table : AliasTable α) (key : NodeId) : Slot :=
  match table.groups[key]? with
  | some group => .group group
  | none => .own key

def sameSlot (table : AliasTable α) (key other : NodeId) : Bool := table.slot key = table.slot other

def content? (table : AliasTable α) : Slot → Option α
  | .group digest => table.shared[digest]?
  | .own key => table.single[key]?

def put (table : AliasTable α) (value : α) : Slot → AliasTable α
  | .group digest => { table with shared := table.shared.insert digest value }
  | .own key => { table with single := table.single.insert key value }

def drop (table : AliasTable α) : Slot → AliasTable α
  | .group digest => { table with shared := table.shared.erase digest }
  | .own key => { table with single := table.single.erase key }

def get? (table : AliasTable α) (key : NodeId) : Option α := table.content? (table.slot key)

def get (table : AliasTable α) (key : NodeId) : Outcome α :=
  match table.get? key with
  | some value => .ok value
  | none => .error (.keyNotBound key)

def set (table : AliasTable α) (key : NodeId) (value : α) : AliasTable α := table.put value (table.slot key)

def modify (key : NodeId) (change : α → α) : Update (AliasTable α) Unit := do
  let value ← Update.read (·.get key)
  Update.write (·.set key (change value))

def entries (table : AliasTable α) : List (NodeId × α) :=
  table.bound.filterMap fun key => (table.get? key).map (key, ·)

/-- Adds the ids of one slot to another; within one slot there is nothing to do. The ids to add are taken out of the
table for that time, and put back also if there is no target. -/
def unionInto (target source : NodeId) : Update (AliasTable IdSet) Unit := fun table =>
  if table.sameSlot target source then (.ok (), table)
  else match table.get? source with
    | none => (.error (.keyNotBound source), table)
    | some added =>
      let rest := table.drop (table.slot source)
      let (merged, rest) : Outcome Unit × AliasTable IdSet :=
        match rest.content? (table.slot target) with
        | some value => (.ok (), rest.put (value ∪ added) (table.slot target))
        | none => (.error (.keyNotBound target), rest)
      (merged, rest.put added (table.slot source))

end AliasTable

end SupplyGraph
