/-!
Byte strings, and words as bytes in either order.
-/

namespace SupplyGraph

abbrev Bytes := List UInt8

namespace Bytes

def ofString (text : String) : Bytes := text.toUTF8.data.toList

def toString? (bytes : Bytes) : Option String := String.fromUTF8? ⟨bytes.toArray⟩

def littleEndian : (count : Nat) → Nat → Bytes
  | 0, _ => []
  | count + 1, n => UInt8.ofNat n :: littleEndian count (n / 256)

@[simp] theorem length_littleEndian (count n : Nat) : (littleEndian count n).length = count := by
  induction count generalizing n with
  | zero => rfl
  | succ count ih => simp [littleEndian, ih]

def ofLittleEndian : Bytes → Nat
  | [] => 0
  | byte :: rest => byte.toNat + 256 * ofLittleEndian rest

def bigEndian (count n : Nat) : Bytes := (littleEndian count n).reverse

@[simp] theorem length_bigEndian (count n : Nat) : (bigEndian count n).length = count := by
  simp [bigEndian]

def ofBigEndian (bytes : Bytes) : Nat := ofLittleEndian bytes.reverse

def split? (count : Nat) (bytes : Bytes) : Option (Bytes × Bytes) :=
  let front := bytes.take count
  if front.length = count then some (front, bytes.drop count) else none

theorem split?_append {front rest : Bytes} {count : Nat} (length : front.length = count) :
    split? count (front ++ rest) = some (front, rest) := by
  subst length
  simp [split?]

end Bytes

end SupplyGraph
