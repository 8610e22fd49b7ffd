import SupplyGraph.Failure
import SupplyGraph.Glob.Pattern

/-!
Which names a pattern matches. Matching is on the UTF-8 bytes of a name: one question mark or class stands for
one byte. The matcher walks the parts of the pattern once and keeps all places in the name that the parts so
far can end at, so its time does not explode on many stars.
-/

namespace SupplyGraph.Glob

/-- For every place in a text, its end included, whether matching can stand there. -/
abbrev Places := List Bool

namespace Places

def start (text : Bytes) : Places := true :: text.map fun _ => false

def nowhere (text : Bytes) : Places := false :: text.map fun _ => false

def union (left right : Places) : Places := left.zipWith (· || ·) right

def advance (accepts : UInt8 → Bool) (text : Bytes) (places : Places) : Places :=
  false :: text.zipWith (fun byte place => place && accepts byte) places

def spreadFrom (reached : Bool) : Places → Places
  | [] => []
  | place :: rest => (reached || place) :: spreadFrom (reached || place) rest

def spread (places : Places) : Places := spreadFrom false places

def slash (text : Bytes) (places : Places) : Places := places.advance (· == 0x2F) text

end Places

/-- The byte ranges of a range of characters: its ends are the last byte of the first character and the first
byte of the last one, and their other bytes stand alone. -/
def byteRanges (range : Char × Char) : List (UInt8 × UInt8) :=
  let bytes (c : Char) : Bytes := Bytes.ofString c.toString
  if range.1 = range.2 then (bytes range.1).map fun byte => (byte, byte)
  else
    let first := bytes range.1
    let last := bytes range.2
    first.dropLast.map (fun byte => (byte, byte)) ++ [(first.getLastD 0, last.headD 0)] ++
      last.tail.map fun byte => (byte, byte)

def inRanges (ranges : List (Char × Char)) : UInt8 → Bool :=
  let bytes := ranges.flatMap byteRanges
  fun byte => bytes.any fun (first, last) => first ≤ byte && byte ≤ last

mutual

def Part.isBlank : Part → Bool
  | .choice branches => Part.allBlank branches
  | _ => false

def Part.listIsBlank : List Part → Bool
  | [] => true
  | part :: rest => part.isBlank && Part.listIsBlank rest

def Part.allBlank : List (List Part) → Bool
  | [] => true
  | branch :: rest => Part.listIsBlank branch && Part.allBlank rest

end

mutual

/-- The places behind one part. Blank alternatives do not count; a group of nothing else is skipped. -/
def Part.follow (text : Bytes) : Part → Places → Places
  | .literal c, places => (Bytes.ofString c.toString).foldl (fun places byte => places.advance (· == byte) text) places
  | .any, places => places.advance (fun _ => true) text
  | .run, places => places.spread
  | .leadingRun, places => places.union (places.spread.slash text)
  | .trailingRun, places => (places.slash text).spread
  | .innerRun, places => (places.slash text).union ((places.slash text).spread.slash text)
  | .range negated ranges, places => places.advance (fun byte => inRanges ranges byte != negated) text
  | .choice branches, places =>
    if Part.allBlank branches then places else Part.followAny text branches places

def Part.followAll (text : Bytes) : List Part → Places → Places
  | [], places => places
  | part :: rest, places => Part.followAll text rest (part.follow text places)

def Part.followAny (text : Bytes) : List (List Part) → Places → Places
  | [], _ => .nowhere text
  | branch :: rest, places =>
    let others := Part.followAny text rest places
    if Part.listIsBlank branch then others else (Part.followAll text branch places).union others

end

namespace Pattern

def ofString (text : String) : Outcome Pattern :=
  (ofChars text.toList).mapError fun fault => .invalidPattern s!"error parsing glob '{text}': {fault.message}"

def matchesBytes (pattern : Pattern) (text : Bytes) : Bool :=
  match pattern.parts with
  | [.leadingRun] => true
  | parts => (Part.followAll text parts (.start text)).getLastD false

def accepts (pattern : Pattern) (name : String) : Bool := pattern.matchesBytes (Bytes.ofString name)

end Pattern

end SupplyGraph.Glob
