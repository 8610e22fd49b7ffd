import SupplyGraph.Proofs.Format.Record
import SupplyGraph.Proofs.Format.Runs

/-!
Which records are read back from their own text. Bytes without runs are read into containers of the form for the
number of their ids. So a node is read back exactly when its bitmaps have only such containers; bitmaps made of sets
do, and those read from runs may not.
-/

namespace SupplyGraph

namespace Bitmap

variable {α β : Type} {bytes rest : Bytes}

namespace Reading

theorem bind_eq_ok {first : Reading α} {next : α → Reading β} {value : β}
    (read : (first >>= next) bytes = .ok (value, rest)) :
    ∃ found between, first bytes = .ok (found, between) ∧ next found between = .ok (value, rest) := by
  cases start : first bytes with
  | error fault =>
      rw [bind_error start] at read
      cases read
  | ok result =>
      rw [bind_ok start] at read
      exact ⟨result.1, result.2, rfl, read⟩

theorem length_of_take {count : Nat} {front : Bytes} (taken : take count bytes = .ok (front, rest)) :
    front.length = count := by
  unfold take Bytes.split? at taken
  by_cases enough : (bytes.take count).length = count
  · rw [if_pos enough] at taken
    cases taken
    exact enough
  · rw [if_neg enough] at taken
    cases taken

end Reading

theorem length_halves (bytes : Bytes) : (halves bytes).length = bytes.length / 2 := by
  fun_induction halves bytes with
  | case1 x y rest ih =>
      simp only [List.length_cons, ih]
      omega
  | case2 bytes short =>
      match bytes with
      | [] => rfl
      | [_] => simp
      | x :: y :: rest => exact absurd rfl (short x y rest)

theorem lt_of_mem_halves {n : Nat} (member : n ∈ halves bytes) : n < 65536 := by
  fun_induction halves bytes with
  | case1 x y rest ih =>
      rcases List.mem_cons.1 member with rfl | later
      · have low : x.toNat < 256 := x.toNat_lt
        have high : y.toNat < 256 := y.toNat_lt
        omega
      · exact ih later
  | case2 => cases member

theorem pairwise_of_isAscending {xs : List Nat} (ascending : isAscending xs) : xs.Pairwise (· < ·) := by
  fun_induction isAscending xs with
  | case1 x y rest ih =>
      rw [Bool.and_eq_true, decide_eq_true_iff] at ascending
      have later := ih ascending.2
      apply List.pairwise_cons.2
      apply And.intro _ later
      intro n member
      rcases List.mem_cons.1 member with rfl | below
      · exact ascending.1
      · exact Nat.lt_trans ascending.1 ((List.pairwise_cons.1 later).1 n below)
  | case2 xs short =>
      match xs with
      | [] => exact .nil
      | [x] => exact List.pairwise_singleton _ x
      | x :: y :: rest => exact absurd rfl (short x y rest)

theorem mem_bitsOf {index n : Nat} (member : n ∈ bitsOf index bytes) :
    8 * index ≤ n ∧ n < 8 * (index + bytes.length) := by
  induction bytes generalizing index with
  | nil => cases member
  | cons byte rest ih =>
      rw [List.length_cons]
      rcases List.mem_append.1 member with here | later
      · obtain ⟨bit, inside, rfl⟩ := List.mem_map.1 here
        have small := List.mem_range.1 (List.mem_of_mem_filter inside)
        omega
      · have bounds := ih later
        omega

theorem ascending_bitsOf (index : Nat) (bytes : Bytes) : (bitsOf index bytes).Pairwise (· < ·) := by
  induction bytes generalizing index with
  | nil => exact .nil
  | cons byte rest ih =>
      apply List.pairwise_append.2
      refine ⟨?_, ih (index + 1), ?_⟩
      · rw [List.pairwise_map]
        exact (List.pairwise_lt_range.filter _).imp fun below => Nat.add_lt_add_left below _
      · intro n here m later
        obtain ⟨bit, inside, rfl⟩ := List.mem_map.1 here
        have small := List.mem_range.1 (List.mem_of_mem_filter inside)
        have bounds := mem_bitsOf later
        omega

theorem wellFormed_of_readContainer {high cardinality : Nat} {container : Container} (smallHigh : high < 65536)
    (positive : 0 < cardinality) (read : readContainer false high cardinality bytes = .ok (container, rest)) :
    container.WellFormed := by
  unfold readContainer at read
  rw [if_neg Bool.false_ne_true] at read
  by_cases short : cardinality ≤ listLimit
  · rw [if_pos short] at read
    obtain ⟨front, between, taken, read⟩ := Reading.bind_eq_ok read
    have length : (halves front).length = cardinality := by
      rw [length_halves, Reading.length_of_take taken, Nat.mul_div_cancel_left cardinality Nat.two_pos]
    by_cases ascending : isAscending (halves front)
    · rw [if_pos ascending] at read
      cases read
      constructor
      case high => exact smallHigh
      case ascending => exact pairwise_of_isAscending ascending
      case small => exact fun low member => lt_of_mem_halves member
      case nonempty => exact List.ne_nil_of_length_pos (length ▸ positive)
      case listed => exact (decide_eq_true (length ▸ short)).symm
    · rw [if_neg ascending] at read
      cases read
  · rw [if_neg short] at read
    obtain ⟨front, between, taken, read⟩ := Reading.bind_eq_ok read
    by_cases length : (bitsOf 0 front).length = cardinality
    · rw [if_pos length] at read
      cases read
      constructor
      case high => exact smallHigh
      case ascending => exact ascending_bitsOf 0 front
      case small =>
        intro low member
        have bounds := mem_bitsOf member
        rw [Reading.length_of_take taken] at bounds
        omega
      case nonempty => exact List.ne_nil_of_length_pos (length ▸ positive)
      case listed => exact (decide_eq_false (length ▸ short)).symm
    · rw [if_neg length] at read
      cases read

theorem wellFormed_of_readContainers {isRuns : Nat → Bool} (noRuns : ∀ index, isRuns index = false) {index : Nat}
    {described : List Nat} (small : ∀ n ∈ described, n < 65536) {containers : List Container}
    (read : readContainers isRuns index described bytes = .ok (containers, rest)) :
    ∀ container ∈ containers, container.WellFormed := by
  fun_induction readContainers isRuns index described generalizing bytes containers with
  | case1 index high less described ih =>
      rw [noRuns] at read
      obtain ⟨first, between, readFirst, read⟩ := Reading.bind_eq_ok read
      obtain ⟨others, last, readOthers, read⟩ := Reading.bind_eq_ok read
      cases read
      intro container listed
      rcases List.mem_cons.1 listed with rfl | later
      · exact wellFormed_of_readContainer (small high List.mem_cons_self) less.succ_pos readFirst
      · exact ih (fun n member => small n (List.mem_cons_of_mem _ (List.mem_cons_of_mem _ member))) readOthers container
          later
  | case2 =>
      cases read
      exact List.forall_mem_nil _

theorem plain_ofContainers {containers : List Container} (wellFormed : ∀ container ∈ containers, container.WellFormed) :
    (ofContainers containers).Plain := by
  constructor
  · apply List.map_eq_nil_iff.2
    apply List.filter_eq_nil_iff.2
    intro container listed
    have good := wellFormed container listed
    rw [Container.isMisfit, good.size_ids, good.listed]
    simp
  · apply List.map_eq_nil_iff.2
    apply List.filter_eq_nil_iff.2
    intro container listed empty
    exact (wellFormed container listed).nonempty (List.isEmpty_iff.1 empty)

theorem read_of_decode {bitmap : Bitmap} (decoded : decode bytes = .ok bitmap) :
    ∃ rest, Bitmap.read bytes = .ok (bitmap, rest) := by
  unfold decode at decoded
  cases read : Bitmap.read bytes with
  | error fault =>
      rw [read] at decoded
      cases decoded
  | ok result =>
      rw [read] at decoded
      cases decoded
      exact ⟨result.2, rfl⟩

theorem plain_of_decode_encode {bitmap other : Bitmap} (decoded : decode bitmap.encode = .ok other) : other.Plain := by
  obtain ⟨rest, read⟩ := read_of_decode decoded
  unfold Bitmap.read encode at read
  simp only [List.append_assoc] at read
  -- The first word says that there are no runs, so all containers are described by their number of ids.
  rw [Reading.bind_ok (Reading.word_append (by decide) _), if_pos rfl] at read
  obtain ⟨count, counted, -, read⟩ := Reading.bind_eq_ok read
  have noFlags (index : Nat) : (([] : Bytes).getD (index / 8) 0).toNat.testBit (index % 8) = false := by simp
  have hasOffsets : (!(count, false).snd || decide (offsetThreshold ≤ (count, false).fst)) = true := rfl
  rw [pure_bind, if_neg Bool.false_ne_true, pure_bind] at read
  by_cases many : count > 65536
  · rw [if_pos many] at read
    cases read
  · rw [if_neg many] at read
    obtain ⟨described, bodies, -, read⟩ := Reading.bind_eq_ok read
    rw [if_pos hasOffsets] at read
    obtain ⟨offsets, placed, -, read⟩ := Reading.bind_eq_ok read
    obtain ⟨containers, last, readAll, read⟩ := Reading.bind_eq_ok read
    have plain := plain_ofContainers (wellFormed_of_readContainers noFlags (fun n => lt_of_mem_halves) readAll)
    unfold join at read
    by_cases ordered : isAscending (containers.map (·.high))
    · rw [if_pos ordered] at read
      cases read
      exact plain
    · rw [if_neg ordered] at read
      cases read

theorem ofText?_toText_iff {bitmap : Bitmap} : ofText? bitmap.toText = some bitmap ↔ bitmap.Plain := by
  constructor
  · intro read
    rw [toText, ofText?_encode bitmap.encode_ne_nil] at read
    cases decoded : decode bitmap.encode with
    | error fault =>
        rw [decoded] at read
        cases read
    | ok other =>
        rw [decoded] at read
        cases read
        exact plain_of_decode_encode decoded
  · exact ofText?_toText

theorem rebuilt_iff {α : Type} (make : Bitmap → Bitmap → α) (injective : Function.Injective2 make)
    {first second : Bitmap} : (do return make (← ofText? first.toText) (← ofText? second.toText) : Option α) =
      some (make first second) ↔ first.Plain ∧ second.Plain := by
  rw [← ofText?_toText_iff, ← ofText?_toText_iff]
  cases ofText? first.toText with
  | none => exact ⟨nofun, fun both => nomatch both.1⟩
  | some one =>
      cases ofText? second.toText with
      | none => exact ⟨nofun, fun both => nomatch both.2⟩
      | some two =>
          constructor
          · intro rebuilt
            obtain ⟨rfl, rfl⟩ := injective (Option.some.inj rebuilt)
            exact ⟨rfl, rfl⟩
          · rintro ⟨sameFirst, sameSecond⟩
            obtain rfl := Option.some.inj sameFirst
            obtain rfl := Option.some.inj sameSecond
            rfl

end Bitmap

namespace Node

theorem rebuilt_iff (node : Node) : (do
    return { node with
      children := ← Bitmap.ofText? node.children.toText
      parents := ← Bitmap.ofText? node.parents.toText } : Option Node) = some node ↔ node.Plain :=
  Bitmap.rebuilt_iff (fun children parents => { node with children, parents })
    fun _ _ _ _ same => ⟨congrArg Node.children same, congrArg Node.parents same⟩

theorem ofJson_toJson_iff (node : Node) : ofJson node.toJson = .ok node ↔ node.Plain := by
  rw [ofJson, toJson, readRecord_write_eq_ok rfl, ofValue?_toDocument, rebuilt_iff]

end Node

namespace Closures

theorem ofJson_toJson_iff (closures : Closures) : ofJson closures.toJson = .ok closures ↔ closures.Plain := by
  rw [ofJson, toJson, readRecord_write_eq_ok rfl, ofValue?_toDocument]
  exact Bitmap.rebuilt_iff (fun ancestors descendants => { closures with ancestors, descendants })
    fun _ _ _ _ same => ⟨congrArg Closures.ancestors same, congrArg Closures.descendants same⟩

end Closures

/-- The records of nodes and of closures are read back exactly when their bitmaps are plain. The bitmap of a set is:
it is written in containers that are ordered, of the form for their number of ids, and together the set. -/
theorem records_roundTrip (node : Node) (closures : Closures) (ids : IdSet) :
    (Node.ofJson node.toJson = .ok node ↔ node.Plain) ∧
      (Closures.ofJson closures.toJson = .ok closures ↔ closures.Plain) ∧
      (Bitmap.ofSet ids).Plain ∧ Bitmap.Contain ids.toList (Bitmap.ofSet ids).containers := by
  refine ⟨node.ofJson_toJson_iff, closures.ofJson_toJson_iff, ⟨rfl, rfl⟩, ?_⟩
  have containers : (Bitmap.ofSet ids).containers = Bitmap.containersOf [] ids.toList := List.nil_merge _
  rw [containers]
  exact Bitmap.containersOf_contain ids.ascending

def Bitmap.longRun : Bitmap := (Bitmap.runBitmap 1 61439).insert 2

theorem Bitmap.ofText?_longRun : Bitmap.ofText? longRun.toText = none := by
  rw [Bitmap.toText, Bitmap.ofText?_encode longRun.encode_ne_nil, longRun,
    Bitmap.decode_insert_run (by decide) (by decide) (by decide) (by decide)]
  rfl

def longRunNode : Node := { id := 1, type := "library", name := "parent", parents := .longRun }

def longRunClosures : Closures := { id := 1, ancestors := .longRun }

theorem ofJson_toJson_longRunNode :
    Bitmap.decode (Bitmap.runBytes 1 61439 Bitmap.listLimit) = .ok (.runBitmap 1 61439) ∧
      Node.ofJson longRunNode.toJson = .error (.json "malformed node record") ∧
      Closures.ofJson longRunClosures.toJson = .error (.json "malformed closure record") ∧
      ¬∀ (node : Node) (closures : Closures), Node.ofJson node.toJson = .ok node ∧
        Closures.ofJson closures.toJson = .ok closures := by
  have failed : Node.ofJson longRunNode.toJson = .error (.json "malformed node record") := by
    rw [Node.ofJson, Node.toJson, readRecord_write_eq rfl, Node.ofValue?_toDocument, longRunNode,
      Bitmap.ofText?_longRun]
    cases Bitmap.ofText? (∅ : Bitmap).toText <;> rfl
  have failedToo : Closures.ofJson longRunClosures.toJson = .error (.json "malformed closure record") := by
    rw [Closures.ofJson, Closures.toJson, readRecord_write_eq rfl, Closures.ofValue?_toDocument, longRunClosures,
      Bitmap.ofText?_longRun]
    rfl
  refine ⟨Bitmap.decode_run (by decide) (by decide), failed, failedToo, fun every => ?_⟩
  rw [(every longRunNode longRunClosures).1] at failed
  cases failed

end SupplyGraph
