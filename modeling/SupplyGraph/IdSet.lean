import Std.Data.TreeSet

/-!
Finite sets of node ids. A set is its strictly ascending list of ids, so two sets with the same members
are the same value and walking a set in ascending order is walking a list. The lemmas say what each
operation does to membership.
-/

namespace SupplyGraph

abbrev NodeId := UInt32

structure IdSet where
  toList : List NodeId
  ascending : toList.Pairwise (· < ·) := by simp
deriving DecidableEq

namespace IdSet

instance : Membership NodeId IdSet := ⟨fun set id => id ∈ set.toList⟩

theorem mem_def {id : NodeId} {set : IdSet} : id ∈ set ↔ id ∈ set.toList := Iff.rfl

instance (id : NodeId) (set : IdSet) : Decidable (id ∈ set) := inferInstanceAs (Decidable (id ∈ set.toList))

instance : EmptyCollection IdSet := ⟨{ toList := [] }⟩

instance : Inhabited IdSet := ⟨∅⟩

@[simp] theorem toList_empty : (∅ : IdSet).toList = [] := rfl

@[simp] theorem not_mem_empty (id : NodeId) : id ∉ (∅ : IdSet) := List.not_mem_nil

def singleton (id : NodeId) : IdSet := { toList := [id] }

@[simp] theorem mem_singleton {id other : NodeId} : id ∈ singleton other ↔ id = other := List.mem_singleton

def contains (set : IdSet) (id : NodeId) : Bool := decide (id ∈ set)

def size (set : IdSet) : Nat := set.toList.length

def isEmpty (set : IdSet) : Bool := set.toList.isEmpty

theorem ext {left right : IdSet} (same : ∀ id, id ∈ left ↔ id ∈ right) : left = right := by
  obtain ⟨left, ascendingLeft⟩ := left
  obtain ⟨right, ascendingRight⟩ := right
  have nodupLeft : left.Nodup := ascendingLeft.imp fun less => UInt32.ne_of_lt less
  have nodupRight : right.Nodup := ascendingRight.imp fun less => UInt32.ne_of_lt less
  have equal : left = right :=
    List.Perm.eq_of_pairwise (fun _ _ _ _ below above => absurd above (UInt32.lt_asymm below))
      ascendingLeft ascendingRight ((List.perm_ext_iff_of_nodup nodupLeft nodupRight).2 same)
  subst equal
  rfl

/-! ## Two sets at once -/

/-- Walks two ascending lists together, in front of the ids already kept in reverse. The flags tell whether to
keep an id that only the first list holds, that both hold, that only the second holds. -/
def sweep (first both second : Bool) (kept : List NodeId) : List NodeId → List NodeId → List NodeId
  | [], ys => kept.reverse ++ if second then ys else []
  | xs, [] => kept.reverse ++ if first then xs else []
  | x :: xs, y :: ys =>
    if x < y then sweep first both second (if first then x :: kept else kept) xs (y :: ys)
    else if y < x then sweep first both second (if second then y :: kept else kept) (x :: xs) ys
    else sweep first both second (if both then x :: kept else kept) xs ys
termination_by xs ys => xs.length + ys.length

theorem mem_sweep (first both second : Bool) (kept xs ys : List NodeId)
    (ascendingXs : xs.Pairwise (· < ·)) (ascendingYs : ys.Pairwise (· < ·)) (id : NodeId) :
    id ∈ sweep first both second kept xs ys ↔ id ∈ kept ∨
      (id ∈ xs ∧ id ∈ ys ∧ both) ∨ (id ∈ xs ∧ id ∉ ys ∧ first) ∨ (id ∉ xs ∧ id ∈ ys ∧ second) := by
  fun_induction sweep first both second kept xs ys with
  | case1 kept ys => cases second <;> simp
  | case2 kept xs => cases first <;> simp
  | case3 kept x xs y ys less ih =>
    have absent : x ∉ y :: ys := by grind [List.pairwise_cons]
    simp only [dite_eq_ite] at ih
    rw [ih (by grind) ascendingYs]
    grind
  | case4 kept x xs y ys notLess less ih =>
    have absent : y ∉ x :: xs := by grind [List.pairwise_cons]
    simp only [dite_eq_ite] at ih
    rw [ih ascendingXs (by grind)]
    grind
  | case5 kept x xs y ys notLess notGreater ih =>
    have equal : x = y := UInt32.le_antisymm (UInt32.not_lt.1 notGreater) (UInt32.not_lt.1 notLess)
    have absentX : x ∉ xs := by grind [List.pairwise_cons]
    have absentY : y ∉ ys := by grind [List.pairwise_cons]
    simp only [dite_eq_ite] at ih
    rw [ih (by grind) (by grind)]
    grind

theorem ascending_sweep (first both second : Bool) (kept xs ys : List NodeId)
    (ascendingXs : xs.Pairwise (· < ·)) (ascendingYs : ys.Pairwise (· < ·)) (descending : kept.Pairwise (· > ·))
    (belowXs : ∀ id ∈ kept, ∀ x ∈ xs, id < x) (belowYs : ∀ id ∈ kept, ∀ y ∈ ys, id < y) :
    (sweep first both second kept xs ys).Pairwise (· < ·) := by
  fun_induction sweep first both second kept xs ys with
  | case1 kept ys =>
    refine List.pairwise_append.2 ⟨List.pairwise_reverse.2 descending, ?_, ?_⟩ <;> cases second <;> simp_all
  | case2 kept xs =>
    refine List.pairwise_append.2 ⟨List.pairwise_reverse.2 descending, ?_, ?_⟩ <;> cases first <;> simp_all
  | case3 kept x xs y ys less ih =>
    apply ih <;> grind [List.pairwise_cons]
  | case4 kept x xs y ys notLess less ih =>
    apply ih <;> grind [List.pairwise_cons]
  | case5 kept x xs y ys notLess notGreater ih =>
    have equal : x = y := UInt32.le_antisymm (UInt32.not_lt.1 notGreater) (UInt32.not_lt.1 notLess)
    apply ih <;> grind [List.pairwise_cons]

def combine (first both second : Bool) (left right : IdSet) : IdSet where
  toList := sweep first both second [] left.toList right.toList
  ascending := ascending_sweep first both second [] _ _ left.ascending right.ascending .nil nofun nofun

theorem mem_combine {first both second : Bool} {left right : IdSet} {id : NodeId} :
    id ∈ combine first both second left right ↔
      (id ∈ left ∧ id ∈ right ∧ both) ∨ (id ∈ left ∧ id ∉ right ∧ first) ∨ (id ∉ left ∧ id ∈ right ∧ second) := by
  have members := mem_sweep first both second [] _ _ left.ascending right.ascending id
  simpa [combine, mem_def] using members

def union (left right : IdSet) : IdSet := combine true true true left right

def inter (left right : IdSet) : IdSet := combine false true false left right

def diff (left right : IdSet) : IdSet := combine true false false left right

def symmDiff (left right : IdSet) : IdSet := combine true false true left right

instance : Union IdSet := ⟨union⟩

instance : Inter IdSet := ⟨inter⟩

instance : SDiff IdSet := ⟨diff⟩

@[simp] theorem mem_union {left right : IdSet} {id : NodeId} : id ∈ left ∪ right ↔ id ∈ left ∨ id ∈ right := by
  have members := @mem_combine true true true left right id
  change id ∈ combine true true true left right ↔ _
  grind

@[simp] theorem mem_inter {left right : IdSet} {id : NodeId} : id ∈ left ∩ right ↔ id ∈ left ∧ id ∈ right := by
  change id ∈ combine false true false left right ↔ _
  simp [mem_combine]

@[simp] theorem mem_diff {left right : IdSet} {id : NodeId} : id ∈ left \ right ↔ id ∈ left ∧ id ∉ right := by
  change id ∈ combine true false false left right ↔ _
  simp [mem_combine]

@[simp] theorem mem_symmDiff {left right : IdSet} {id : NodeId} :
    id ∈ left.symmDiff right ↔ (id ∈ left ∧ id ∉ right) ∨ (id ∉ left ∧ id ∈ right) := by
  simp [symmDiff, mem_combine]

def insert (id : NodeId) (set : IdSet) : IdSet := singleton id ∪ set

@[simp] theorem mem_insert {id other : NodeId} {set : IdSet} : id ∈ set.insert other ↔ id = other ∨ id ∈ set := by
  simp [insert]

/-! ## Sets from lists -/

def ofList (ids : List NodeId) : IdSet where
  toList := (Std.TreeSet.ofList ids).toList
  ascending := (Std.TreeSet.ordered_toList (t := Std.TreeSet.ofList ids)).imp Std.compare_eq_lt.1

@[simp] theorem mem_ofList {id : NodeId} {ids : List NodeId} : id ∈ ofList ids ↔ id ∈ ids := by
  rw [mem_def, ofList, Std.TreeSet.mem_toList, Std.TreeSet.mem_ofList, List.contains_iff_mem]

def filter (keep : NodeId → Bool) (set : IdSet) : IdSet where
  toList := set.toList.filter keep
  ascending := set.ascending.filter keep

@[simp] theorem mem_filter {keep : NodeId → Bool} {set : IdSet} {id : NodeId} :
    id ∈ set.filter keep ↔ id ∈ set ∧ keep id := List.mem_filter

/-! ## Size -/

theorem add_length_le {bound : Nat} {ids : List NodeId} (ascending : ids.Pairwise (· < ·))
    (above : ∀ id ∈ ids, bound ≤ id.toNat) (small : bound ≤ UInt32.size) : bound + ids.length ≤ UInt32.size := by
  induction ids generalizing bound with
  | nil => simpa using small
  | cons first rest ih =>
    obtain ⟨below, ascending⟩ := List.pairwise_cons.1 ascending
    have start := above first (by simp)
    have fits : first.toNat < UInt32.size := first.toNat_lt
    have aboveFirst : ∀ id ∈ rest, first.toNat + 1 ≤ id.toNat :=
      fun id member => UInt32.lt_iff_toNat_lt.1 (below id member)
    have more := ih ascending aboveFirst (by omega)
    simp only [List.length_cons]
    omega

theorem size_le (set : IdSet) : set.size ≤ UInt32.size := by
  have above : ∀ id ∈ set.toList, 0 ≤ id.toNat := by simp
  have bound := add_length_le set.ascending above (by simp)
  simpa [size] using bound

theorem nodup (set : IdSet) : set.toList.Nodup := set.ascending.imp fun less => UInt32.ne_of_lt less

theorem size_eq_zero {set : IdSet} : set.size = 0 ↔ set = ∅ := by
  obtain ⟨ids, ascending⟩ := set
  simp only [size, List.length_eq_zero_iff]
  constructor
  · rintro rfl
    rfl
  · exact congrArg toList

theorem size_union_diff (left right : IdSet) : (left ∪ (right \ left)).size = left.size + (right \ left).size := by
  have perm : (left ∪ (right \ left)).toList.Perm (left.toList ++ (right \ left).toList) := by
    refine (List.perm_ext_iff_of_nodup (nodup _) ?_).2 ?_
    · refine List.nodup_append.2 ⟨nodup _, nodup _, ?_⟩
      rintro id member other inDiff rfl
      exact (mem_diff.1 inDiff).2 member
    · intro id
      rw [List.mem_append]
      exact mem_union
  simpa [size] using perm.length_eq

end IdSet

end SupplyGraph
