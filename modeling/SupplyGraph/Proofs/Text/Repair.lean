import SupplyGraph.Proofs.Format.Bytes
import SupplyGraph.Text.Repair
import Mathlib.Data.List.TakeWhile

/-!
Repair leaves valid UTF-8 alone.
-/

namespace SupplyGraph.Text

/-- The bytes of one character: the first byte says how many follow, and all of these are in range. -/
structure Encodes (first : UInt8) (others : Bytes) (low high : UInt8) : Prop where
  length : following? first = some (others.length, low, high)
  second : ∀ byte ∈ others.head?, low ≤ byte ∧ byte ≤ high
  later : ∀ byte ∈ others.tail, isContinuation byte

theorem Encodes.continued {first low high : UInt8} {others : Bytes} (encodes : Encodes first others low high)
    (rest : Bytes) : continued first (others ++ rest) = others := by
  cases others with
  | nil => simp [Text.continued, encodes.length]
  | cons second others =>
      obtain ⟨above, below⟩ := encodes.second second rfl
      have whole : others.takeWhile isContinuation = others := List.takeWhile_eq_self_iff.2 encodes.later
      simp [Text.continued, encodes.length, above, below, whole]

theorem Encodes.repair {first low high : UInt8} {others : Bytes} (encodes : Encodes first others low high)
    (rest : Bytes) : repair (first :: others ++ rest) = first :: others ++ repair rest := by
  have complete : isComplete first others := by simp [isComplete, encodes.length]
  rw [List.cons_append, Text.repair, encodes.continued, if_pos complete, List.drop_left]

theorem following?_one : ∀ n ≤ 0x7F, following? (.ofNat n) = some (0, 0, 0) := by decide +kernel

theorem following?_two : ∀ n ≤ 0xDF, 0xC2 ≤ n → following? (.ofNat n) = some (1, 0x80, 0xBF) := by decide +kernel

theorem following?_three : ∀ n ≤ 0xEF, 0xE0 ≤ n →
    following? (.ofNat n) = some (2, if n = 0xE0 then 0xA0 else 0x80, if n = 0xED then 0x9F else 0xBF) := by
  decide +kernel

theorem following?_four : ∀ n ≤ 0xF4, 0xF0 ≤ n →
    following? (.ofNat n) = some (3, if n = 0xF0 then 0x90 else 0x80, if n = 0xF4 then 0x8F else 0xBF) := by
  decide +kernel

theorem inRange_ofNat {low high : UInt8} {n : Nat} (above : low.toNat ≤ n) (below : n ≤ high.toNat) :
    low ≤ UInt8.ofNat n ∧ UInt8.ofNat n ≤ high := by
  have small : n < 256 := Nat.lt_of_le_of_lt below high.toNat_lt
  rw [UInt8.le_iff_toNat_le, UInt8.le_iff_toNat_le, UInt8.toNat_ofNat', Nat.mod_eq_of_lt small]
  exact ⟨above, below⟩

theorem isContinuation_ofNat (n : Nat) : isContinuation (.ofNat (n % 64 + 128)) := by
  have below : n % 64 + 128 ≤ (0xBF : UInt8).toNat := by
    change _ ≤ 191
    omega
  have bounds : 0x80 ≤ UInt8.ofNat (n % 64 + 128) ∧ _ := inRange_ofNat (Nat.le_add_left ..) below
  simp only [isContinuation, bounds, decide_true, Bool.and_self]

theorem encodes_utf8EncodeChar (c : Char) :
    ∃ first others low high, String.utf8EncodeChar c = first :: others ∧ Encodes first others low high := by
  have valid : c.val.toNat < 0xD800 ∨ 0xDFFF < c.val.toNat ∧ c.val.toNat < 0x110000 := c.valid
  unfold String.utf8EncodeChar
  dsimp only
  generalize c.val.toNat = n at valid
  split
  next small => exact ⟨_, _, 0, 0, rfl, following?_one n small, nofun, nofun⟩
  next =>
  split
  next =>
    refine ⟨_, _, 0x80, 0xBF, rfl, following?_two _ (by omega) (by omega), ?_, nofun⟩
    rintro _ ⟨⟩
    exact inRange_ofNat (by change 128 ≤ _; omega) (by change _ ≤ 191; omega)
  next =>
  split
  next =>
    refine ⟨_, _, _, _, rfl, following?_three _ (by omega) (by omega), ?_, ?_⟩
    · rintro _ ⟨⟩
      refine inRange_ofNat ?_ ?_
      · split
        · change 160 ≤ _; omega
        · change 128 ≤ _; omega
      · split
        · change _ ≤ 159; omega
        · change _ ≤ 191; omega
    · rintro _ (_ | ⟨_, ⟨⟩⟩)
      exact isContinuation_ofNat n
  next =>
    refine ⟨_, _, _, _, rfl, following?_four _ (by omega) (by omega), ?_, ?_⟩
    · rintro _ ⟨⟩
      refine inRange_ofNat ?_ ?_
      · split
        · change 144 ≤ _; omega
        · change 128 ≤ _; omega
      · split
        · change _ ≤ 143; omega
        · change _ ≤ 191; omega
    · rintro _ (_ | ⟨_, _ | ⟨_, ⟨⟩⟩⟩)
      · exact isContinuation_ofNat (n / 64)
      · exact isContinuation_ofNat n

theorem repair_flatMap (chars : List Char) :
    repair (chars.flatMap String.utf8EncodeChar) = chars.flatMap String.utf8EncodeChar := by
  induction chars with
  | nil => rw [List.flatMap_nil, repair]
  | cons c chars ih =>
      obtain ⟨first, others, low, high, bytes, encodes⟩ := encodes_utf8EncodeChar c
      rw [List.flatMap_cons, bytes, encodes.repair, ih]

theorem repair_ofString (text : String) : repair (Bytes.ofString text) = Bytes.ofString text := by
  rw [← String.ofList_toList (s := text), Bytes.ofString_ofList, repair_flatMap]

end SupplyGraph.Text
