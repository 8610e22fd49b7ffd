import SupplyGraph.Format.Base64
import Mathlib.Tactic.Common

/-!
Every byte string is read back from its digits.
-/

namespace SupplyGraph.Base64

theorem value?_digit {n : Nat} (small : n < 64) : value? (digit n) = some n := by
  have all : ∀ n < 64, value? (digit n) = some n := by decide
  exact all n small

theorem digit_ne {n : Nat} (small : n < 64) : digit n ≠ '=' := by
  have all : ∀ n < 64, digit n ≠ '=' := by decide
  exact all n small

theorem byte_of_parts {byte : UInt8} {n : Nat} (same : n = byte.toNat) : UInt8.ofNat n = byte := by
  rw [same, UInt8.ofNat_toNat]

theorem decodeChars_encodeChars (bytes : Bytes) : decodeChars (encodeChars bytes) = some bytes := by
  fun_induction encodeChars bytes with
  | case1 => rfl
  | case2 x =>
      have first := x.toNat_lt
      have a : value? (digit (x.toNat / 4)) = some (x.toNat / 4) := value?_digit (by omega)
      have b : value? (digit (x.toNat % 4 * 16)) = some (x.toNat % 4 * 16) := value?_digit (by omega)
      have unused : x.toNat % 4 * 16 % 16 = 0 := by omega
      have byte : UInt8.ofNat (x.toNat / 4 * 4 + x.toNat % 4 * 16 / 16) = x := byte_of_parts (by omega)
      simp only [decodeChars, a, b, bind, Option.bind, unused, byte, if_true]
  | case3 x y =>
      have first := x.toNat_lt
      have second := y.toNat_lt
      have a : value? (digit (x.toNat / 4)) = some (x.toNat / 4) := value?_digit (by omega)
      have b : value? (digit (x.toNat % 4 * 16 + y.toNat / 16)) = some (x.toNat % 4 * 16 + y.toNat / 16) :=
        value?_digit (by omega)
      have c : value? (digit (y.toNat % 16 * 4)) = some (y.toNat % 16 * 4) := value?_digit (by omega)
      have notPadding : digit (y.toNat % 16 * 4) ≠ '=' := digit_ne (by omega)
      have unused : y.toNat % 16 * 4 % 4 = 0 := by omega
      have byteX : UInt8.ofNat (x.toNat / 4 * 4 + (x.toNat % 4 * 16 + y.toNat / 16) / 16) = x :=
        byte_of_parts (by omega)
      have byteY : UInt8.ofNat ((x.toNat % 4 * 16 + y.toNat / 16) % 16 * 16 + y.toNat % 16 * 4 / 4) = y :=
        byte_of_parts (by omega)
      rw [decodeChars.eq_3 _ _ _ notPadding]
      simp only [a, b, c, bind, Option.bind, unused, byteX, byteY, if_true]
  | case4 x y z rest ih =>
      have first := x.toNat_lt
      have second := y.toNat_lt
      have third := z.toNat_lt
      have a : value? (digit (x.toNat / 4)) = some (x.toNat / 4) := value?_digit (by omega)
      have b : value? (digit (x.toNat % 4 * 16 + y.toNat / 16)) = some (x.toNat % 4 * 16 + y.toNat / 16) :=
        value?_digit (by omega)
      have c : value? (digit (y.toNat % 16 * 4 + z.toNat / 64)) = some (y.toNat % 16 * 4 + z.toNat / 64) :=
        value?_digit (by omega)
      have d : value? (digit (z.toNat % 64)) = some (z.toNat % 64) := value?_digit (by omega)
      have notPadding : digit (z.toNat % 64) ≠ '=' := digit_ne (by omega)
      have byteX : UInt8.ofNat (x.toNat / 4 * 4 + (x.toNat % 4 * 16 + y.toNat / 16) / 16) = x :=
        byte_of_parts (by omega)
      have byteY : UInt8.ofNat ((x.toNat % 4 * 16 + y.toNat / 16) % 16 * 16 +
          (y.toNat % 16 * 4 + z.toNat / 64) / 4) = y :=
        byte_of_parts (by omega)
      have byteZ : UInt8.ofNat ((y.toNat % 16 * 4 + z.toNat / 64) % 4 * 64 + z.toNat % 64) = z :=
        byte_of_parts (by omega)
      rw [decodeChars.eq_4 _ _ _ _ _ (fun _ isPadding _ => notPadding isPadding) fun isPadding _ => notPadding isPadding]
      simp only [a, b, c, d, ih, bind, Option.bind, byteX, byteY, byteZ]

theorem decode_encode (bytes : Bytes) : decode (encode bytes) = some bytes := by
  rw [decode, encode, String.toList_ofList, decodeChars_encodeChars]

theorem length_encodeChars (bytes : Bytes) : (encodeChars bytes).length = (bytes.length + 2) / 3 * 4 := by
  fun_induction encodeChars bytes with
  | case1 => rfl
  | case2 | case3 => simp
  | case4 x y z rest ih =>
      simp only [List.length_cons, ih]
      omega

end SupplyGraph.Base64
