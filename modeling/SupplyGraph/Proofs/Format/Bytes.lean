import SupplyGraph.Bytes
import Mathlib.Algebra.Ring.Nat
import Mathlib.Tactic.Common

/-!
Words and texts are read back from their bytes.
-/

namespace SupplyGraph.Bytes

theorem split?_eq_none {count : Nat} {bytes : Bytes} (short : bytes.length < count) : bytes.split? count = none := by
  unfold split?
  exact if_neg (by rw [List.length_take]; omega)

theorem ofLittleEndian_littleEndian (count n : Nat) : ofLittleEndian (littleEndian count n) = n % 256 ^ count := by
  induction count generalizing n with
  | zero => simp [littleEndian, ofLittleEndian, Nat.mod_one]
  | succ count ih =>
      have low : (UInt8.ofNat n).toNat = n % 256 := UInt8.toNat_ofNat
      rw [littleEndian, ofLittleEndian, ih, low, Nat.pow_succ', Nat.mod_mul]

theorem ofLittleEndian_of_lt {count n : Nat} (small : n < 256 ^ count) :
    ofLittleEndian (littleEndian count n) = n := by
  rw [ofLittleEndian_littleEndian, Nat.mod_eq_of_lt small]

theorem ofBigEndian_of_lt {count n : Nat} (small : n < 256 ^ count) : ofBigEndian (bigEndian count n) = n := by
  rw [ofBigEndian, bigEndian, List.reverse_reverse, ofLittleEndian_of_lt small]

theorem ofLittleEndian_lt (bytes : Bytes) : ofLittleEndian bytes < 256 ^ bytes.length := by
  induction bytes with
  | nil => simp [ofLittleEndian]
  | cons byte bytes ih =>
      have low : byte.toNat < 256 := byte.toNat_lt
      rw [ofLittleEndian, List.length_cons, Nat.pow_succ']
      omega

theorem ofBigEndian_lt (bytes : Bytes) : ofBigEndian bytes < 256 ^ bytes.length := by
  rw [← List.length_reverse]
  exact ofLittleEndian_lt bytes.reverse

theorem littleEndian_ofLittleEndian (bytes : Bytes) : littleEndian bytes.length (ofLittleEndian bytes) = bytes := by
  induction bytes with
  | nil => rfl
  | cons byte bytes ih =>
      have low : byte.toNat < 256 := byte.toNat_lt
      have first : UInt8.ofNat (byte.toNat + 256 * ofLittleEndian bytes) = byte := by
        apply UInt8.toNat_inj.1
        rw [UInt8.toNat_ofNat']
        omega
      have rest : (byte.toNat + 256 * ofLittleEndian bytes) / 256 = ofLittleEndian bytes := by omega
      rw [ofLittleEndian, List.length_cons, littleEndian, first, rest, ih]

theorem bigEndian_ofBigEndian (bytes : Bytes) : bigEndian bytes.length (ofBigEndian bytes) = bytes := by
  rw [bigEndian, ofBigEndian, ← List.length_reverse, littleEndian_ofLittleEndian, List.reverse_reverse]

theorem compare_append {xs ys : Bytes} (length : xs.length = ys.length) (x y : UInt8) :
    compare (xs ++ [x]) (ys ++ [y]) = (compare xs ys).then (compare x y) := by
  induction xs generalizing ys with
  | nil =>
      obtain rfl := List.length_eq_zero_iff.1 length.symm
      cases compared : compare x y <;> simp [List.compare_cons_cons, compared]
  | cons first xs ih =>
      cases ys with
      | nil => simp at length
      | cons second ys =>
          rw [List.cons_append, List.cons_append, List.compare_cons_cons, List.compare_cons_cons, ih (by simpa using length),
            Ordering.then_assoc]

theorem compare_bigEndian {count n m : Nat} (small : m < 256 ^ count) (less : n < m) :
    compare (bigEndian count n) (bigEndian count m) = .lt := by
  induction count generalizing n m with
  | zero => simp at small; omega
  | succ count ih =>
      have split (n : Nat) : bigEndian (count + 1) n = bigEndian count (n / 256) ++ [UInt8.ofNat n] := by
        rw [bigEndian, littleEndian, List.reverse_cons, bigEndian]
      rw [split, split, compare_append (by simp)]
      by_cases same : n / 256 = m / 256
      · have low : UInt8.ofNat n < UInt8.ofNat m := by
          rw [UInt8.lt_iff_toNat_lt, UInt8.toNat_ofNat', UInt8.toNat_ofNat']
          omega
        have equal : compare (bigEndian count (m / 256)) (bigEndian count (m / 256)) = .eq := Std.compare_self
        rw [same, equal, Ordering.eq_then, Std.compare_eq_lt.2 low]
      · have above := ih (n := n / 256) (m := m / 256) (by rw [Nat.pow_succ] at small; omega) (by omega)
        rw [above]
        rfl

theorem toString?_ofString (text : String) : toString? (ofString text) = some text := by
  have valid : text.toUTF8.IsValidUTF8 := text.isValidUTF8
  exact dif_pos valid

theorem ofString_ofList (chars : List Char) : ofString (String.ofList chars) = chars.flatMap String.utf8EncodeChar := by
  unfold ofString String.toUTF8
  rw [String.toByteArray_ofList]
  exact List.toList_data_toByteArray

theorem length_ofString_ofList_le (chars : List Char) : (ofString (String.ofList chars)).length ≤ 4 * chars.length := by
  rw [ofString_ofList]
  induction chars with
  | nil => exact Nat.zero_le _
  | cons c chars ih =>
      rw [List.flatMap_cons, List.length_append, String.length_utf8EncodeChar, List.length_cons]
      have size := c.utf8Size_le_four
      omega

theorem ofString_inj {text other : String} (same : ofString text = ofString other) : text = other := by
  have read := toString?_ofString text
  rw [same, toString?_ofString other] at read
  exact (Option.some.inj read).symm

end SupplyGraph.Bytes
