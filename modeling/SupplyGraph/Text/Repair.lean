import SupplyGraph.Bytes

/-!
Bytes made into valid UTF-8. Whatever is the start of a character that is cut off, and every byte that starts
none, is replaced by U+FFFD.
-/

namespace SupplyGraph.Text

def replacement : Bytes := [0xEF, 0xBF, 0xBD]

def isContinuation (byte : UInt8) : Bool := 0x80 ≤ byte && byte ≤ 0xBF

/-- How many bytes follow the first byte of a character, and the range of the second one. -/
def following? (first : UInt8) : Option (Nat × UInt8 × UInt8) :=
  if first < 0x80 then some (0, 0, 0)
  else if first < 0xC2 then none
  else if first < 0xE0 then some (1, 0x80, 0xBF)
  else if first = 0xE0 then some (2, 0xA0, 0xBF)
  else if first = 0xED then some (2, 0x80, 0x9F)
  else if first < 0xF0 then some (2, 0x80, 0xBF)
  else if first = 0xF0 then some (3, 0x90, 0xBF)
  else if first < 0xF4 then some (3, 0x80, 0xBF)
  else if first = 0xF4 then some (3, 0x80, 0x8F)
  else none

def continued (first : UInt8) (rest : Bytes) : Bytes :=
  match following? first, rest with
  | some (count + 1, low, high), second :: others =>
    if low ≤ second && second ≤ high then second :: (others.take count).takeWhile isContinuation else []
  | _, _ => []

def isComplete (first : UInt8) (others : Bytes) : Bool :=
  match following? first with
  | some (count, _, _) => others.length == count
  | none => false

def repair : Bytes → Bytes
  | [] => []
  | first :: rest =>
    let others := continued first rest
    (if isComplete first others then first :: others else replacement) ++ repair (rest.drop others.length)
termination_by bytes => bytes.length
decreasing_by
  simp only [List.length_drop, List.length_cons]
  omega

end SupplyGraph.Text
