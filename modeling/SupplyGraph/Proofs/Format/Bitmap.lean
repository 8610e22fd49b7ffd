import SupplyGraph.Graph.Node
import SupplyGraph.Proofs.Format.Bytes
import Mathlib.Data.List.Perm.Subperm
import Mathlib.Data.List.TakeWhile

/-!
Bitmaps whose containers are as writing leaves them. Only these are read back from their bytes as they were.
-/

namespace SupplyGraph

namespace Bitmap

/-- Every container has the form for the number of its ids, and none is empty. -/
def Plain (bitmap : Bitmap) : Prop := bitmap.misfits = [] ∧ bitmap.empties = []

theorem Plain.ext {bitmap other : Bitmap} (plain : bitmap.Plain) (otherPlain : other.Plain)
    (same : bitmap.ids = other.ids) : bitmap = other := by
  obtain ⟨ids, misfits, empties⟩ := bitmap
  obtain ⟨rfl, rfl⟩ := plain
  obtain ⟨otherIds, misfits, empties⟩ := other
  obtain ⟨rfl, rfl⟩ := otherPlain
  obtain rfl : ids = otherIds := same
  rfl

theorem Plain.insert {bitmap : Bitmap} (plain : bitmap.Plain) (id : NodeId) : (bitmap.insert id).Plain := by
  unfold Bitmap.insert
  split
  · exact plain
  · exact ⟨by rw [plain.1, List.filter_nil], by rw [plain.2, List.filter_nil]⟩

theorem ascending_ext {xs ys : List Nat} (ascendingXs : xs.Pairwise (· < ·)) (ascendingYs : ys.Pairwise (· < ·))
    (same : ∀ n, n ∈ xs ↔ n ∈ ys) : xs = ys := by
  have perm := (List.perm_ext_iff_of_nodup (ascendingXs.imp Nat.ne_of_lt) (ascendingYs.imp Nat.ne_of_lt)).2 same
  exact perm.eq_of_pairwise (fun _ _ _ _ below above => absurd above (Nat.lt_asymm below)) ascendingXs ascendingYs

theorem length_le_of_ascending {xs : List Nat} {bound : Nat} (ascending : xs.Pairwise (· < ·))
    (below : ∀ n ∈ xs, n < bound) : xs.length ≤ bound := by
  have within : xs ⊆ List.range bound := fun n member => List.mem_range.2 (below n member)
  have shorter := (List.subperm_of_subset (ascending.imp Nat.ne_of_lt) within).length_le
  rwa [List.length_range] at shorter

theorem lt_of_mem_dropWhile {α : Type} {key : α → Nat} {least : Nat} {items : List α}
    (monotone : items.Pairwise fun item other => key item ≤ key other) (above : ∀ item ∈ items, least ≤ key item) :
    ∀ item ∈ items.dropWhile fun item => key item == least, least < key item := by
  induction items with
  | nil => exact nofun
  | cons first items ih =>
      obtain ⟨below, monotone⟩ := List.pairwise_cons.1 monotone
      by_cases equal : key first = least
      · rw [List.dropWhile_cons_of_pos (by simpa using equal)]
        exact ih monotone fun item member => above item (List.mem_cons_of_mem _ member)
      · have larger := Nat.lt_of_le_of_ne (above first (List.mem_cons_self ..)) (Ne.symm equal)
        rw [List.dropWhile_cons_of_neg (by simpa using equal)]
        intro item member
        rcases List.mem_cons.1 member with rfl | later
        · exact larger
        · exact Nat.lt_of_lt_of_le larger (below item later)

theorem isAscending_of_pairwise {xs : List Nat} (ascending : xs.Pairwise (· < ·)) : isAscending xs = true := by
  induction xs with
  | nil => rfl
  | cons x xs ih =>
      obtain ⟨below, ascending⟩ := List.pairwise_cons.1 ascending
      cases xs with
      | nil => rfl
      | cons y ys => simp [isAscending, below y (List.mem_cons_self ..), ih ascending]

theorem halves_littleEndian (n : Nat) (rest : Bytes) :
    halves (Bytes.littleEndian 2 n ++ rest) = n % 65536 :: halves rest := by
  have low : (UInt8.ofNat n).toNat = n % 256 := UInt8.toNat_ofNat
  have high : (UInt8.ofNat (n / 256)).toNat = n / 256 % 256 := UInt8.toNat_ofNat
  have value : n % 256 + 256 * (n / 256 % 256) = n % 65536 := by omega
  simp only [Bytes.littleEndian, List.cons_append, List.nil_append, halves, low, high, value]

theorem halves_flatMap {words : List Nat} (small : ∀ n ∈ words, n < 65536) :
    halves (words.flatMap (Bytes.littleEndian 2)) = words := by
  induction words with
  | nil => rfl
  | cons n words ih =>
      rw [List.flatMap_cons, halves_littleEndian, ih fun other member => small other (List.mem_cons_of_mem _ member),
        Nat.mod_eq_of_lt (small n (List.mem_cons_self ..))]

theorem testBit_foldl (lows : List Nat) (start bit : Nat) :
    (lows.foldl (fun byte low => byte ||| 1 <<< (low % 8)) start).testBit bit =
      (start.testBit bit || lows.any fun low => low % 8 == bit) := by
  induction lows generalizing start with
  | nil => simp
  | cons low lows ih =>
      rw [List.foldl_cons, ih, Nat.testBit_or, Nat.one_shiftLeft, Nat.testBit_two_pow, List.any_cons, Bool.or_assoc]
      rfl

theorem length_fieldBytes (count index : Nat) (lows : List Nat) : (fieldBytes count index lows).length = count := by
  induction count generalizing index lows with
  | zero => rfl
  | succ count ih => rw [fieldBytes, List.length_cons, ih]

theorem bitsOf_byte {index : Nat} {here : List Nat} (ascending : here.Pairwise (· < ·))
    (inside : ∀ low ∈ here, low / 8 = index) :
    ((List.range 8).filter fun bit =>
      (UInt8.ofNat (here.foldl (fun byte low => byte ||| 1 <<< (low % 8)) 0)).toNat.testBit bit).map
      (8 * index + ·) = here := by
  refine ascending_ext ?_ ascending fun n => ?_
  · rw [List.pairwise_map]
    exact (List.pairwise_lt_range.filter _).imp fun below => Nat.add_lt_add_left below _
  · have value : (UInt8.ofNat (here.foldl (fun byte low => byte ||| 1 <<< (low % 8)) 0)).toNat =
        here.foldl (fun byte low => byte ||| 1 <<< (low % 8)) 0 % 2 ^ 8 := UInt8.toNat_ofNat
    simp only [List.mem_map, List.mem_filter, List.mem_range, value, Nat.testBit_mod_two_pow, testBit_foldl,
      Nat.zero_testBit, Bool.false_or, Bool.and_eq_true, decide_eq_true_eq, List.any_eq_true, beq_iff_eq]
    constructor
    · rintro ⟨bit, ⟨small, -, low, member, rfl⟩, rfl⟩
      rwa [← inside low member, Nat.div_add_mod]
    · intro member
      refine ⟨n % 8, ⟨Nat.mod_lt _ (by decide), Nat.mod_lt _ (by decide), n, member, rfl⟩, ?_⟩
      rw [← inside n member, Nat.div_add_mod]

theorem bitsOf_fieldBytes {count index : Nat} {lows : List Nat} (ascending : lows.Pairwise (· < ·))
    (within : ∀ low ∈ lows, index ≤ low / 8 ∧ low / 8 < index + count) :
    bitsOf index (fieldBytes count index lows) = lows := by
  induction count generalizing index lows with
  | zero =>
      cases lows with
      | nil => rfl
      | cons low lows =>
          have bounds := within low (List.mem_cons_self ..)
          omega
  | succ count ih =>
      have inside : ∀ low ∈ lows.takeWhile fun low => low / 8 == index, low / 8 = index := by
        intro low member
        simpa using List.mem_takeWhile_imp member
      have monotone : lows.Pairwise fun low other => low / 8 ≤ other / 8 :=
        ascending.imp fun below => Nat.div_le_div_right (Nat.le_of_lt below)
      have later := lt_of_mem_dropWhile monotone fun low member => (within low member).1
      rw [fieldBytes, bitsOf, bitsOf_byte (ascending.sublist (List.takeWhile_sublist _)) inside, ih]
      · exact List.takeWhile_append_dropWhile
      · exact ascending.sublist (List.dropWhile_sublist _)
      · intro low member
        have bounds := within low ((List.dropWhile_sublist _).subset member)
        exact ⟨later low member, by omega⟩

structure Container.Fits (container : Container) : Prop where
  high : container.high < 65536
  nonempty : container.lows ≠ []
  most : container.lows.length ≤ 65536

structure Container.WellFormed (container : Container) : Prop where
  high : container.high < 65536
  ascending : container.lows.Pairwise (· < ·)
  small : ∀ low ∈ container.lows, low < 65536
  nonempty : container.lows ≠ []
  listed : container.listed = decide (container.lows.length ≤ listLimit)

theorem Container.WellFormed.length_pos {container : Container} (wellFormed : container.WellFormed) :
    0 < container.lows.length := List.length_pos_iff.2 wellFormed.nonempty

theorem Container.WellFormed.fits {container : Container} (wellFormed : container.WellFormed) : container.Fits :=
  ⟨wellFormed.high, wellFormed.nonempty, length_le_of_ascending wellFormed.ascending wellFormed.small⟩

theorem toNat_eq_halves (id : NodeId) : id.toNat = highHalf id * 65536 + lowHalf id := by
  rw [highHalf, lowHalf, Nat.mul_comm, Nat.div_add_mod]

theorem ofNat_halves (id : NodeId) : UInt32.ofNat (highHalf id * 65536 + lowHalf id) = id := by
  rw [← toNat_eq_halves, UInt32.ofNat_toNat]

theorem highHalf_lt (id : NodeId) : highHalf id < 65536 := by
  have bound := id.toNat_lt
  unfold highHalf
  omega

theorem ascending_lowHalf {ids : List NodeId} {high : Nat} (ascending : ids.Pairwise (· < ·))
    (together : ∀ id ∈ ids, highHalf id = high) : (ids.map lowHalf).Pairwise (· < ·) := by
  rw [List.pairwise_map]
  refine ascending.imp_of_mem fun {id other} member otherMember below => ?_
  have less := UInt32.lt_iff_toNat_lt.1 below
  rw [toNat_eq_halves, toNat_eq_halves other, together id member, together other otherMember] at less
  omega

theorem wellFormed_group {id : NodeId} {group : List NodeId} (ascending : (id :: group).Pairwise (· < ·))
    (together : ∀ other ∈ id :: group, highHalf other = highHalf id) :
    (Container.mk (highHalf id) ((id :: group).map lowHalf)
      (decide (((id :: group).map lowHalf).length ≤ listLimit))).WellFormed := by
  constructor
  case high => exact highHalf_lt id
  case ascending => exact ascending_lowHalf ascending together
  case small =>
    intro low member
    obtain ⟨other, -, rfl⟩ := List.mem_map.1 member
    exact Nat.mod_lt _ (by decide)
  case nonempty => exact List.cons_ne_nil _ _
  case listed => rfl

theorem map_group {id : NodeId} {group : List NodeId}
    (together : ∀ other ∈ id :: group, highHalf other = highHalf id) :
    ((id :: group).map lowHalf).map (fun low => UInt32.ofNat (highHalf id * 65536 + low)) = id :: group := by
  rw [List.map_map]
  refine (List.map_congr_left fun other member => ?_).trans (List.map_id _)
  rw [Function.comp_apply, ← together other member, ofNat_halves]
  rfl

/-- What the containers of ascending ids are like. -/
structure Contain (ids : List NodeId) (containers : List Container) : Prop where
  wellFormed : ∀ container ∈ containers, container.WellFormed
  highs : ∀ container ∈ containers, ∃ id ∈ ids, highHalf id = container.high
  ordered : (containers.map (·.high)).Pairwise (· < ·)
  joined : containers.flatMap (fun container =>
    container.lows.map fun low => UInt32.ofNat (container.high * 65536 + low)) = ids

theorem containersOf_contain {ids : List NodeId} (ascending : ids.Pairwise (· < ·)) :
    Contain ids (containersOf [] ids) := by
  fun_induction containersOf [] ids with
  | case1 =>
      constructor
      case wellFormed => exact nofun
      case highs => exact nofun
      case ordered => exact .nil
      case joined => rfl
  | case2 id rest lows ih =>
      obtain ⟨below, ascendingRest⟩ := List.pairwise_cons.1 ascending
      let sameHigh (other : NodeId) : Bool := highHalf other == highHalf id
      have together : ∀ other ∈ id :: rest.takeWhile sameHigh, highHalf other = highHalf id := by
        intro other member
        rcases List.mem_cons.1 member with rfl | inside
        · rfl
        · have same : sameHigh other := List.mem_takeWhile_imp inside
          exact beq_iff_eq.1 same
      have ascendingGroup : (id :: rest.takeWhile sameHigh).Pairwise (· < ·) :=
        ascending.sublist ((List.takeWhile_sublist _).cons_cons id)
      have monotone : rest.Pairwise fun first second => highHalf first ≤ highHalf second :=
        ascendingRest.imp fun less => Nat.div_le_div_right (Nat.le_of_lt (UInt32.lt_iff_toNat_lt.1 less))
      have above : ∀ other ∈ rest, highHalf id ≤ highHalf other := fun other member =>
        Nat.div_le_div_right (Nat.le_of_lt (UInt32.lt_iff_toNat_lt.1 (below other member)))
      have later : ∀ other ∈ rest.dropWhile sameHigh, highHalf id < highHalf other :=
        lt_of_mem_dropWhile monotone above
      have others := ih (ascendingRest.sublist (List.dropWhile_sublist _))
      simp only [List.contains_nil, Bool.bne_false]
      constructor
      case wellFormed =>
        intro container member
        rcases List.mem_cons.1 member with rfl | inside
        · exact wellFormed_group ascendingGroup together
        · exact others.wellFormed container inside
      case highs =>
        intro container member
        rcases List.mem_cons.1 member with rfl | inside
        · exact ⟨id, List.mem_cons_self .., rfl⟩
        · obtain ⟨other, listed, same⟩ := others.highs container inside
          exact ⟨other, List.mem_cons_of_mem _ ((List.dropWhile_sublist _).subset listed), same⟩
      case ordered =>
        rw [List.map_cons, List.pairwise_cons]
        refine ⟨fun high member => ?_, others.ordered⟩
        obtain ⟨container, inside, rfl⟩ := List.mem_map.1 member
        obtain ⟨other, listed, same⟩ := others.highs container inside
        exact same ▸ later other listed
      case joined =>
        rw [List.flatMap_cons, others.joined]
        change ((id :: rest.takeWhile sameHigh).map lowHalf).map _ ++ rest.dropWhile sameHigh = _
        rw [map_group together, List.cons_append, List.takeWhile_append_dropWhile]

namespace Reading

variable {α β : Type}

theorem bind_ok {first : Reading α} {next : α → Reading β} {value : α} {bytes rest : Bytes}
    (read : first bytes = .ok (value, rest)) : (first >>= next) bytes = next value rest := by
  simp only [bind, StateT.bind, read, Except.bind]

theorem take_append {front rest : Bytes} {count : Nat} (length : front.length = count) :
    take count (front ++ rest) = .ok (front, rest) := by
  rw [take, Bytes.split?_append length]

theorem word_append {count n : Nat} (small : n < 256 ^ count) (rest : Bytes) :
    word count (Bytes.littleEndian count n ++ rest) = .ok (n, rest) := by
  unfold word
  rw [bind_ok (take_append (Bytes.length_littleEndian count n)), Bytes.ofLittleEndian_of_lt small]
  rfl

end Reading

variable {container : Container} {containers : List Container}

theorem length_flatMap {α : Type} {size : Nat} {write : α → Bytes} (length : ∀ item, (write item).length = size)
    (items : List α) : (items.flatMap write).length = size * items.length := by
  induction items with
  | nil => rfl
  | cons item items ih =>
      rw [List.flatMap_cons, List.length_append, ih, length, List.length_cons, Nat.mul_succ, Nat.add_comm]

theorem readContainer_toBytes (wellFormed : container.WellFormed) (rest : Bytes) :
    readContainer false container.high container.lows.length (container.toBytes ++ rest) = .ok (container, rest) := by
  have form := wellFormed.listed
  obtain ⟨high, lows, listed⟩ := container
  obtain ⟨-, ascending, small, -, -⟩ := wellFormed
  dsimp only at form ascending small ⊢
  unfold readContainer Container.toBytes
  rw [if_neg Bool.false_ne_true]
  by_cases short : lows.length ≤ listLimit
  · obtain rfl : listed = true := form.trans (decide_eq_true short)
    rw [if_pos short, if_pos rfl,
      Reading.bind_ok (Reading.take_append (length_flatMap (Bytes.length_littleEndian 2) lows))]
    simp only [halves_flatMap small, isAscending_of_pairwise ascending, if_true]
    rfl
  · obtain rfl : listed = false := form.trans (decide_eq_false short)
    have read : bitsOf 0 (fieldBytes 8192 0 lows) = lows := by
      refine bitsOf_fieldBytes ascending fun low member => ?_
      have bound := small low member
      omega
    rw [if_neg short, if_neg Bool.false_ne_true, Reading.bind_ok (Reading.take_append (length_fieldBytes 8192 0 lows))]
    simp only [read, if_true]
    rfl

theorem readContainers_toBytes (wellFormed : ∀ container ∈ containers, container.WellFormed) {isRuns : Nat → Bool}
    (noRuns : ∀ index, isRuns index = false) (index : Nat) (rest : Bytes) :
    readContainers isRuns index (containers.flatMap fun container => [container.high, container.lows.length - 1])
      ((containers.map Container.toBytes).flatten ++ rest) = .ok (containers, rest) := by
  induction containers generalizing index with
  | nil => rfl
  | cons container containers ih =>
      have first := wellFormed container (List.mem_cons_self ..)
      have others := ih (fun other member => wellFormed other (List.mem_cons_of_mem _ member)) (index + 1)
      have count : container.lows.length - 1 + 1 = container.lows.length := Nat.sub_add_cancel first.length_pos
      simp only [List.flatMap_cons, List.cons_append, List.nil_append, List.map_cons, List.flatten_cons,
        List.append_assoc, readContainers, noRuns, count]
      rw [Reading.bind_ok (readContainer_toBytes first _), Reading.bind_ok others]
      rfl

theorem halves_describe (fits : ∀ container ∈ containers, container.Fits) :
    halves (containers.flatMap Container.describe) =
      containers.flatMap fun container => [container.high, container.lows.length - 1] := by
  induction containers with
  | nil => rfl
  | cons container containers ih =>
      obtain ⟨high, nonempty, most⟩ := fits container (List.mem_cons_self ..)
      have positive := List.length_pos_iff.2 nonempty
      have less : (container.lows.length + 65535) % 65536 = container.lows.length - 1 := by omega
      rw [List.flatMap_cons, Container.describe, List.append_assoc, halves_littleEndian, halves_littleEndian,
        ih fun other member => fits other (List.mem_cons_of_mem _ member), Nat.mod_eq_of_lt high, less]
      rfl

theorem Container.WellFormed.size_ids (wellFormed : container.WellFormed) :
    container.ids.size = container.lows.length := by
  have nodup : (container.lows.map fun low => UInt32.ofNat (container.high * 65536 + low)).Nodup := by
    refine List.pairwise_map.2 (wellFormed.ascending.imp_of_mem fun {low other} member otherMember below same => ?_)
    have numbers := congrArg UInt32.toNat same
    have high := wellFormed.high
    have small := wellFormed.small low member
    have otherSmall := wellFormed.small other otherMember
    have size : UInt32.size = 4294967296 := rfl
    rw [UInt32.toNat_ofNat_of_lt' (by omega), UInt32.toNat_ofNat_of_lt' (by omega)] at numbers
    omega
  have perm : container.ids.toList.Perm (container.lows.map fun low => UInt32.ofNat (container.high * 65536 + low)) := by
    refine (List.perm_ext_iff_of_nodup container.ids.nodup nodup).2 fun id => ?_
    exact IdSet.mem_ofList
  rw [IdSet.size, perm.length_eq, List.length_map]

theorem ofContainers_eq {ids : IdSet} (contain : Contain ids.toList containers) :
    ofContainers containers = { ids } := by
  have members : IdSet.ofList (containers.flatMap fun container => container.ids.toList) = ids := by
    refine IdSet.ext fun id => ?_
    rw [IdSet.mem_ofList, List.mem_flatMap, IdSet.mem_def, ← contain.joined, List.mem_flatMap]
    exact exists_congr fun container => and_congr_right fun _ => IdSet.mem_ofList
  have noMisfits : containers.filter Container.isMisfit = [] := by
    rw [List.filter_eq_nil_iff]
    intro container member
    have wellFormed := contain.wellFormed container member
    rw [Container.isMisfit, wellFormed.size_ids, wellFormed.listed]
    simp
  have noEmpties : containers.filter (fun container => container.lows.isEmpty) = [] := by
    rw [List.filter_eq_nil_iff]
    intro container member empty
    exact (contain.wellFormed container member).nonempty (List.isEmpty_iff.1 empty)
  unfold ofContainers
  rw [members, noMisfits, noEmpties]
  rfl

theorem join_eq {ids : IdSet} (contain : Contain ids.toList containers) (bytes : Bytes) :
    join containers bytes = .ok ({ ids }, bytes) := by
  rw [join, if_pos (isAscending_of_pairwise contain.ordered), ofContainers_eq contain]
  rfl

theorem length_offsets (start : Nat) (bodies : List Bytes) : (offsets start bodies).length = bodies.length := by
  induction bodies generalizing start with
  | nil => rfl
  | cons body bodies ih => rw [offsets, List.length_cons, ih, List.length_cons]

theorem length_describes (containers : List Container) :
    (containers.flatMap Container.describe).length = 4 * containers.length :=
  length_flatMap (fun container => by rw [Container.describe, List.length_append]; rfl) containers

theorem length_placed (start : Nat) (bodies : List Bytes) :
    ((offsets start bodies).flatMap (Bytes.littleEndian 4)).length = 4 * bodies.length := by
  rw [length_flatMap (Bytes.length_littleEndian 4), length_offsets]

theorem length_encode (bitmap : Bitmap) : bitmap.encode.length =
    8 + 8 * bitmap.containers.length + (bitmap.containers.map Container.toBytes).flatten.length := by
  unfold encode
  simp only [List.length_append, Bytes.length_littleEndian, length_describes, length_placed, List.length_map]
  omega

theorem read_encode {bitmap : Bitmap} (fits : ∀ container ∈ bitmap.containers, container.Fits)
    (few : bitmap.containers.length ≤ 65536) :
    ∃ isRuns : Nat → Bool, (∀ index, isRuns index = false) ∧ read bitmap.encode =
      (readContainers isRuns 0 (bitmap.containers.flatMap fun container =>
        [container.high, container.lows.length - 1]) >>= join) (bitmap.containers.map Container.toBytes).flatten := by
  refine ⟨fun index => (([] : Bytes).getD (index / 8) 0).toNat.testBit (index % 8), by simp, ?_⟩
  unfold read encode
  generalize bitmap.containers = found at fits few
  have described := length_describes found
  have placed := length_placed (8 + 8 * found.length) (found.map Container.toBytes)
  rw [List.length_map] at placed
  have hasOffsets : (!(found.length, false).snd || decide (offsetThreshold ≤ (found.length, false).fst)) = true := rfl
  simp only [List.append_assoc]
  rw [Reading.bind_ok (Reading.word_append (by decide) _), if_pos rfl,
    Reading.bind_ok (Reading.word_append (by omega) _), pure_bind, if_neg Bool.false_ne_true, pure_bind,
    if_neg (by omega), Reading.bind_ok (Reading.take_append described), if_pos hasOffsets,
    Reading.bind_ok (Reading.take_append placed), halves_describe fits]

theorem decode_encode {bitmap : Bitmap} (plain : bitmap.Plain) : decode bitmap.encode = .ok bitmap := by
  obtain ⟨ids, misfits, empties⟩ := bitmap
  obtain ⟨rfl, rfl⟩ : misfits = [] ∧ empties = [] := plain
  have contain := containersOf_contain ids.ascending
  have parts : containers { ids } = containersOf [] ids.toList := List.nil_merge _
  rw [← parts] at contain
  -- No two containers share a high half, so their number passes the limit that reading checks.
  have few : (containers { ids }).length ≤ 65536 := by
    have highs := length_le_of_ascending contain.ordered fun high member => by
      obtain ⟨container, listed, rfl⟩ := List.mem_map.1 member
      exact (contain.wellFormed container listed).high
    rwa [List.length_map] at highs
  obtain ⟨isRuns, noRuns, read⟩ := read_encode (fun container listed => (contain.wellFormed container listed).fits) few
  have bodies := readContainers_toBytes contain.wellFormed noRuns 0 []
  rw [List.append_nil] at bodies
  unfold decode
  rw [read, Reading.bind_ok bodies, join_eq contain]
  rfl

end Bitmap

def Node.Plain (node : Node) : Prop := node.children.Plain ∧ node.parents.Plain

def Closures.Plain (closures : Closures) : Prop := closures.ancestors.Plain ∧ closures.descendants.Plain

end SupplyGraph
