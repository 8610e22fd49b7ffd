import SupplyGraph.Proofs.Format.Bitmap

/-!
A container that is read from runs keeps the form that it was given. One that is a list of more ids than a list may
hold is written as a list, and reading takes that for a bit field: after an id has been added elsewhere, such a bitmap
is not read from the bytes that are then written.
-/

namespace SupplyGraph

namespace Bitmap

open Bytes (littleEndian)

namespace Reading

theorem bind_error {α β : Type} {first : Reading α} {next : α → Reading β} {fault : Fault} {bytes : Bytes}
    (failed : first bytes = .error fault) : (first >>= next) bytes = .error fault := by
  simp only [bind, StateT.bind, failed, Except.bind]

end Reading

def runBytes (high start more : Nat) : Bytes :=
  littleEndian 4 runCookie ++ ([1] ++ ((littleEndian 2 high ++ littleEndian 2 more) ++
    (littleEndian 2 1 ++ (littleEndian 2 start ++ littleEndian 2 more))))

theorem halves_pair {first second : Nat} (small : first < 65536) (otherSmall : second < 65536) :
    halves (littleEndian 2 first ++ littleEndian 2 second) = [first, second] := by
  rw [halves_littleEndian, ← List.append_nil (littleEndian 2 second), halves_littleEndian, Nat.mod_eq_of_lt small,
    Nat.mod_eq_of_lt otherSmall]
  rfl

theorem readContainer_run {high start more cardinality : Nat} (fits : start + more < 65536) :
    readContainer true high cardinality (littleEndian 2 1 ++ (littleEndian 2 start ++ littleEndian 2 more)) =
      .ok ({ high, lows := List.range' start (more + 1), listed := more ≤ listLimit }, []) := by
  have run : (littleEndian 2 start ++ littleEndian 2 more).length = 4 * 1 := by
    rw [List.length_append, Bytes.length_littleEndian, Bytes.length_littleEndian]
  have words := @halves_pair start more (by omega) (by omega)
  have unrolled : runs [start, more] = .ok (List.range' start (more + 1)) := by
    rw [runs, if_pos fits]
    exact congrArg Except.ok (List.append_nil _)
  have counted : (runCounts [start, more]).foldl (· + ·) 0 = more := Nat.zero_add more
  have taken : Reading.take (4 * 1) (littleEndian 2 start ++ littleEndian 2 more) =
      .ok (littleEndian 2 start ++ littleEndian 2 more, []) := by
    rw [← List.append_nil (_ ++ _)]
    exact Reading.take_append run
  unfold readContainer
  rw [if_pos rfl, Reading.bind_ok (Reading.word_append (by decide) _), Reading.bind_ok taken, words, counted, unrolled]
  rfl

theorem decode_runBytes {high start more : Nat} (smallHigh : high < 65536) (fits : start + more < 65536) :
    decode (runBytes high start more) =
      .ok (ofContainers [{ high, lows := List.range' start (more + 1), listed := more ≤ listLimit }]) := by
  have described : (littleEndian 2 high ++ littleEndian 2 more).length = 4 * 1 := by
    rw [List.length_append, Bytes.length_littleEndian, Bytes.length_littleEndian]
  have flagged : (([1] : Bytes).getD (0 / 8) 0).toNat.testBit (0 % 8) = true := rfl
  have single : runCookie / 65536 + 1 = 1 := rfl
  have containers : readContainers (fun index => (([1] : Bytes).getD (index / 8) 0).toNat.testBit (index % 8)) 0 [high, more]
      (littleEndian 2 1 ++ (littleEndian 2 start ++ littleEndian 2 more)) =
      .ok ([{ high, lows := List.range' start (more + 1), listed := more ≤ listLimit }], []) := by
    rw [readContainers, flagged, Reading.bind_ok (readContainer_run fits)]
    rfl
  unfold decode read runBytes
  rw [Reading.bind_ok (Reading.word_append (by decide) _), if_neg (by decide), if_pos (by decide), pure_bind]
  dsimp only
  rw [single, if_pos rfl, Reading.bind_ok (Reading.take_append (by decide)), if_neg (by decide),
    Reading.bind_ok (Reading.take_append described), if_neg (by decide), halves_pair smallHigh (by omega),
    Reading.bind_ok containers]
  rfl

def runIds (high start : Nat) : List NodeId :=
  (List.range' start (listLimit + 1)).map fun low => UInt32.ofNat (high * 65536 + low)

def runBitmap (high start : Nat) : Bitmap := { ids := IdSet.ofList (runIds high start), misfits := [high] }

theorem three_le_length_bits {n : Nat} (large : 224 ≤ n) (small : n < 256) :
    3 ≤ ((List.range 8).filter fun bit => n.testBit bit).length := by
  have all : ∀ more < 32, 3 ≤ ((List.range 8).filter fun bit => (224 + more).testBit bit).length := by decide +kernel
  obtain ⟨more, rfl⟩ := Nat.exists_eq_add_of_le large
  exact all more (by omega)

theorem length_bitsOf_words {words : List Nat} (large : ∀ n ∈ words, 57344 ≤ n ∧ n < 65536) (index : Nat) :
    3 * words.length ≤ (bitsOf index (words.flatMap (littleEndian 2))).length := by
  induction words generalizing index with
  | nil => exact Nat.zero_le _
  | cons n words ih =>
      have bounds := large n List.mem_cons_self
      have later := ih (fun other member => large other (List.mem_cons_of_mem n member)) (index + 1 + 1)
      have byte : (UInt8.ofNat (n / 256)).toNat = n / 256 := by
        rw [UInt8.toNat_ofNat']
        omega
      have bits := three_le_length_bits (n := n / 256) (by omega) (by omega)
      have pair : littleEndian 2 n = [UInt8.ofNat n, UInt8.ofNat (n / 256)] := rfl
      simp only [List.flatMap_cons, pair, List.cons_append, List.nil_append, bitsOf, List.length_append,
        List.length_map, List.length_cons, byte]
      omega

variable {high start : Nat}

theorem toNat_runId {low : Nat} (smallHigh : high < 65536) (small : low < 65536) :
    (UInt32.ofNat (high * 65536 + low)).toNat = high * 65536 + low := by
  have size : UInt32.size = 4294967296 := rfl
  rw [UInt32.toNat_ofNat_of_lt' (by omega)]

theorem readContainer_long (late : 57344 ≤ start) (fits : start + listLimit < 65536) (rest : Bytes) :
    readContainer false high (listLimit + 1) ((List.range' start (listLimit + 1)).flatMap (littleEndian 2) ++ rest) =
      .error .wrongCardinality := by
  let field := (List.range' start listLimit).flatMap (littleEndian 2)
  have length : field.length = 8192 := by
    rw [length_flatMap (Bytes.length_littleEndian 2), List.length_range']
    rfl
  have bits : 3 * listLimit ≤ (bitsOf 0 field).length := by
    have large : ∀ n ∈ List.range' start listLimit, 57344 ≤ n ∧ n < 65536 := by
      intro n member
      have bounds := List.mem_range'_1.1 member
      omega
    have bound := length_bitsOf_words large 0
    rwa [List.length_range'] at bound
  have wrong : (bitsOf 0 field).length ≠ listLimit + 1 := by
    have limit : listLimit = 4096 := rfl
    omega
  unfold readContainer
  rw [if_neg Bool.false_ne_true, if_neg (Nat.not_succ_le_self listLimit), List.range'_1_concat, List.flatMap_append,
    List.append_assoc, Reading.bind_ok (Reading.take_append length), if_neg wrong]
  rfl

theorem containersOf_group {misfits : List Nat} {id : NodeId} {group rest : List NodeId}
    (together : ∀ other ∈ group, highHalf other = highHalf id) (apart : ∀ other ∈ rest, highHalf other ≠ highHalf id) :
    containersOf misfits (id :: (group ++ rest)) =
      { high := highHalf id, lows := (id :: group).map lowHalf
        listed := decide (((id :: group).map lowHalf).length ≤ listLimit) != misfits.contains (highHalf id) } ::
      containersOf misfits rest := by
  have same : ∀ other ∈ group, (highHalf other == highHalf id) = true := fun other member =>
    beq_iff_eq.2 (together other member)
  have stops : rest.takeWhile (fun other => highHalf other == highHalf id) = [] ∧
      rest.dropWhile (fun other => highHalf other == highHalf id) = rest := by
    cases rest with
    | nil => exact ⟨rfl, rfl⟩
    | cons first rest =>
        have differs : ¬(highHalf first == highHalf id) = true := mt beq_iff_eq.1 (apart first List.mem_cons_self)
        exact ⟨List.takeWhile_cons_of_neg differs, List.dropWhile_cons_of_neg differs⟩
  rw [containersOf, List.takeWhile_append_of_pos same, List.dropWhile_append_of_pos same, stops.1, stops.2,
    List.append_nil]

section

variable (smallHigh : high < 65536) (fits : start + listLimit < 65536)
include smallHigh fits

theorem ascending_runIds : (runIds high start).Pairwise (· < ·) := by
  rw [runIds, List.pairwise_map]
  refine List.Pairwise.imp_of_mem (fun {low other} member otherMember below => ?_) List.pairwise_lt_range'
  have bounds := List.mem_range'_1.1 member
  have otherBounds := List.mem_range'_1.1 otherMember
  rw [UInt32.lt_iff_toNat_lt, toNat_runId smallHigh (by omega), toNat_runId smallHigh (by omega)]
  omega

theorem highHalf_runIds : ∀ id ∈ runIds high start, highHalf id = high := by
  intro id member
  obtain ⟨low, inside, rfl⟩ := List.mem_map.1 member
  have bounds := List.mem_range'_1.1 inside
  rw [highHalf, toNat_runId smallHigh (by omega)]
  omega

theorem lowHalf_runIds : (runIds high start).map lowHalf = List.range' start (listLimit + 1) := by
  rw [runIds, List.map_map]
  refine (List.map_congr_left fun low member => ?_).trans (List.map_id _)
  have bounds := List.mem_range'_1.1 member
  rw [Function.comp_apply, lowHalf, toNat_runId smallHigh (by omega)]
  exact Nat.mul_add_mod_of_lt (by omega)

theorem size_runIds : (IdSet.ofList (runIds high start)).size = listLimit + 1 := by
  have wellFormed : ({ high, lows := List.range' start (listLimit + 1), listed := false } : Container).WellFormed := by
    constructor
    case high => exact smallHigh
    case ascending => exact List.pairwise_lt_range'
    case small =>
      intro low member
      have bounds := List.mem_range'_1.1 member
      omega
    case nonempty => exact nofun
    case listed => rw [List.length_range', decide_eq_false (Nat.not_succ_le_self listLimit)]
  have size := wellFormed.size_ids
  rwa [List.length_range'] at size

theorem decode_run : decode (runBytes high start listLimit) = .ok (runBitmap high start) := by
  let run : Container := { high, lows := List.range' start (listLimit + 1), listed := true }
  have own : run.ids = IdSet.ofList (runIds high start) := by rw [Container.ids, runIds]
  have joined : IdSet.ofList ([run].flatMap fun container => container.ids.toList) = IdSet.ofList (runIds high start) :=
    IdSet.ext fun id => by rw [List.flatMap_singleton, own, IdSet.mem_ofList, IdSet.mem_def]
  have misfit : run.isMisfit = true := by
    rw [Container.isMisfit, own, size_runIds smallHigh fits]
    rfl
  have filled : run.lows.isEmpty = false := rfl
  rw [decode_runBytes smallHigh fits, decide_eq_true (Nat.le_refl listLimit)]
  change Except.ok (ofContainers [run]) = _
  rw [ofContainers, joined, List.filter_singleton, List.filter_singleton, misfit, filled]
  rfl

theorem toList_insert_run {id : NodeId} (before : highHalf id < high) :
    ((IdSet.ofList (runIds high start)).insert id).toList = id :: runIds high start := by
  have ascending : (id :: runIds high start).Pairwise (· < ·) := by
    refine List.pairwise_cons.2 ⟨fun other member => ?_, ascending_runIds smallHigh fits⟩
    have half := highHalf_runIds smallHigh fits other member
    rw [UInt32.lt_iff_toNat_lt, toNat_eq_halves, toNat_eq_halves other, half]
    have low : lowHalf id < 65536 := Nat.mod_lt _ (by decide)
    omega
  have same : (IdSet.ofList (runIds high start)).insert id = { toList := id :: runIds high start, ascending } := by
    refine IdSet.ext fun other => ?_
    rw [IdSet.mem_insert, IdSet.mem_ofList, IdSet.mem_def, List.mem_cons]
  rw [same]

theorem containers_insert_run {id : NodeId} (before : highHalf id < high) :
    ((runBitmap high start).insert id).containers =
      [{ high := highHalf id, lows := [lowHalf id], listed := true },
        { high, lows := List.range' start (listLimit + 1), listed := true }] := by
  have apart : ∀ other ∈ runIds high start, highHalf other ≠ highHalf id := fun other member =>
    highHalf_runIds smallHigh fits other member ▸ Nat.ne_of_gt before
  have absent : id ∉ IdSet.ofList (runIds high start) := fun member => apart id (IdSet.mem_ofList.1 member) rfl
  have inserted : (runBitmap high start).insert id =
      { ids := (IdSet.ofList (runIds high start)).insert id, misfits := [high] } := by
    have kept : [high].filter (· ≠ highHalf id) = [high] := by simp [Nat.ne_of_gt before]
    rw [insert, runBitmap, if_neg absent, kept, List.filter_nil]
  let first := UInt32.ofNat (high * 65536 + start)
  let others := (List.range' (start + 1) listLimit).map fun low => UInt32.ofNat (high * 65536 + low)
  have here : highHalf first = high := highHalf_runIds smallHigh fits first List.mem_cons_self
  have together : ∀ other ∈ others, highHalf other = highHalf first := fun other member =>
    (highHalf_runIds smallHigh fits other (List.mem_cons_of_mem first member)).trans here.symm
  have lows : (first :: others).map lowHalf = List.range' start (listLimit + 1) := lowHalf_runIds smallHigh fits
  have group := @containersOf_group [high] first others [] together (List.forall_mem_nil _)
  rw [List.append_nil, lows, here, List.length_range', containersOf.eq_1] at group
  have misfit : (decide (listLimit + 1 ≤ listLimit) != [high].contains high) = true := by simp
  rw [misfit] at group
  have own := @containersOf_group [high] id [] (runIds high start) (List.forall_mem_nil _) apart
  rw [inserted, containers, List.map_nil, List.nil_merge, toList_insert_run smallHigh fits before]
  refine own.trans (congrArg₂ List.cons ?_ group)
  simp [Nat.ne_of_lt before, listLimit]

theorem decode_insert_run (late : 57344 ≤ start) {id : NodeId} (before : highHalf id < high) :
    decode ((runBitmap high start).insert id).encode = .error .wrongCardinality := by
  have parts := containers_insert_run smallHigh fits before
  have own : ({ high := highHalf id, lows := [lowHalf id], listed := true } : Container).WellFormed := by
    constructor
    case high => exact highHalf_lt id
    case ascending => exact List.pairwise_singleton _ _
    case small =>
      intro low member
      rw [List.mem_singleton.1 member]
      exact Nat.mod_lt _ (by decide)
    case nonempty => exact List.cons_ne_nil _ _
    case listed => rfl
  have long : ({ high, lows := List.range' start (listLimit + 1), listed := true } : Container).Fits := by
    constructor
    case high => exact smallHigh
    case nonempty => exact nofun
    case most =>
      rw [List.length_range']
      decide
  obtain ⟨isRuns, noRuns, read⟩ := read_encode  (by
    rw [parts]
    intro container listed
    rcases List.mem_cons.1 listed with rfl | listed
    · exact own.fits
    · rwa [List.mem_singleton.1 listed]) (by rw [parts]; exact Nat.le_of_ble_eq_true rfl)
  let list := (List.range' start (listLimit + 1)).flatMap (littleEndian 2)
  have first : readContainer false (highHalf id) (0 + 1) ([lowHalf id].flatMap (littleEndian 2) ++ (list ++ [])) =
      .ok ({ high := highHalf id, lows := [lowHalf id], listed := true }, list ++ []) := readContainer_toBytes own _
  have second : readContainer false high (listLimit + 1) (list ++ []) = .error .wrongCardinality :=
    readContainer_long late fits []
  have bodies : readContainers isRuns 0 [highHalf id, 0, high, listLimit]
      ([lowHalf id].flatMap (littleEndian 2) ++ (list ++ [])) = .error .wrongCardinality := by
    rw [readContainers, noRuns, Reading.bind_ok first, readContainers, noRuns,
      Reading.bind_error (Reading.bind_error second)]
  have described : [Container.mk (highHalf id) [lowHalf id] true,
      Container.mk high (List.range' start (listLimit + 1)) true].flatMap
        (fun container => [container.high, container.lows.length - 1]) = [highHalf id, 0, high, listLimit] := by
    simp
  have written : ([Container.mk (highHalf id) [lowHalf id] true,
      Container.mk high (List.range' start (listLimit + 1)) true].map Container.toBytes).flatten =
        [lowHalf id].flatMap (littleEndian 2) ++ (list ++ []) := rfl
  unfold decode
  rw [read, parts, described, written, Reading.bind_error bodies]
  rfl

end

end Bitmap

end SupplyGraph
