import SupplyGraph.Bytes
import SupplyGraph.IdSet

/-!
Bitmaps: sets of 32-bit words in containers, and the portable format that they are written in. Words with the
same high half share a container. A container either lists its low halves or is a field of 65536 bits. A written
container is taken to be a list exactly if it has up to 4096 ids; one that is read may also hold runs, which may
leave it in the other form until an id is added to it.
-/

namespace SupplyGraph

structure Bitmap where
  ids : IdSet := ∅
  /-- The high halves of the containers whose form is not the one for the number of their ids. -/
  misfits : List Nat := []
  empties : List Nat := []
deriving DecidableEq

namespace Bitmap

instance : EmptyCollection Bitmap := ⟨{}⟩

instance : Membership NodeId Bitmap := ⟨fun bitmap id => id ∈ bitmap.ids⟩

def ofSet (ids : IdSet) : Bitmap := { ids }

def contains (bitmap : Bitmap) (id : NodeId) : Bool := bitmap.ids.contains id

def highHalf (id : NodeId) : Nat := id.toNat / 65536

def lowHalf (id : NodeId) : Nat := id.toNat % 65536

def insert (id : NodeId) (bitmap : Bitmap) : Bitmap :=
  if id ∈ bitmap.ids then bitmap
  else
    { ids := bitmap.ids.insert id
      misfits := bitmap.misfits.filter (· ≠ highHalf id)
      empties := bitmap.empties.filter (· ≠ highHalf id) }

@[simp] theorem ids_insert (id : NodeId) (bitmap : Bitmap) : (bitmap.insert id).ids = bitmap.ids.insert id := by
  unfold insert
  split
  · rename_i member
    refine IdSet.ext fun other => ?_
    rw [IdSet.mem_insert]
    exact ⟨Or.inr, fun either => either.elim (fun equal => equal ▸ member) fun present => present⟩
  · rfl

inductive Fault
  | unknownCookie | tooManyContainers | tooShort | unsorted | wrongCardinality | runOverflow
deriving DecidableEq

def Fault.message : Fault → String
  | unknownCookie => "unknown cookie value"
  | tooManyContainers => "size is greater than supported"
  | tooShort => "failed to fill whole buffer"
  | unsorted => "array values are not strictly ascending"
  | wrongCardinality => "cardinality does not match the bit field"
  | runOverflow => "a run ends beyond its container"

def plainCookie : Nat := 12346

def runCookie : Nat := 12347

def listLimit : Nat := 4096

def offsetThreshold : Nat := 4

structure Container where
  high : Nat
  lows : List Nat
  listed : Bool

/-! ## Writing -/

def containersOf (misfits : List Nat) : List NodeId → List Container
  | [] => []
  | id :: rest =>
    let lows := (id :: rest.takeWhile fun other => highHalf other == highHalf id).map lowHalf
    { high := highHalf id, lows, listed := decide (lows.length ≤ listLimit) != misfits.contains (highHalf id) } ::
      containersOf misfits (rest.dropWhile fun other => highHalf other == highHalf id)
termination_by ids => ids.length
decreasing_by exact Nat.lt_succ_of_le (List.dropWhile_sublist _).length_le

def containers (bitmap : Bitmap) : List Container :=
  (bitmap.empties.map fun high => { high, lows := [], listed := true }).merge
    (containersOf bitmap.misfits bitmap.ids.toList) fun left right => left.high ≤ right.high

def fieldBytes : (count index : Nat) → List Nat → Bytes
  | 0, _, _ => []
  | count + 1, index, lows =>
    let here := lows.takeWhile fun low => low / 8 == index
    UInt8.ofNat (here.foldl (fun byte low => byte ||| 1 <<< (low % 8)) 0) ::
      fieldBytes count (index + 1) (lows.dropWhile fun low => low / 8 == index)

def Container.toBytes (container : Container) : Bytes :=
  if container.listed then container.lows.flatMap (Bytes.littleEndian 2) else fieldBytes 8192 0 container.lows

/-- The high half and the number of ids less one; in two bytes none are as many as 65536. -/
def Container.describe (container : Container) : Bytes :=
  Bytes.littleEndian 2 container.high ++ Bytes.littleEndian 2 (container.lows.length + 65535)

def offsets (start : Nat) : List Bytes → List Nat
  | [] => []
  | body :: rest => start :: offsets (start + body.length) rest

def encode (bitmap : Bitmap) : Bytes :=
  let parts := bitmap.containers
  let bodies := parts.map Container.toBytes
  Bytes.littleEndian 4 plainCookie ++ Bytes.littleEndian 4 parts.length ++ parts.flatMap Container.describe ++
    (offsets (8 + 8 * parts.length) bodies).flatMap (Bytes.littleEndian 4) ++ bodies.flatten

/-! ## Reading -/

abbrev Reading (α : Type) := StateT Bytes (Except Fault) α

namespace Reading

def take (count : Nat) : Reading Bytes := fun bytes =>
  match bytes.split? count with
  | some (front, rest) => .ok (front, rest)
  | none => .error .tooShort

def word (count : Nat) : Reading Nat := do return Bytes.ofLittleEndian (← take count)

end Reading

def halves : Bytes → List Nat
  | x :: y :: rest => (x.toNat + 256 * y.toNat) :: halves rest
  | _ => []

def bitsOf (index : Nat) : Bytes → List Nat
  | [] => []
  | byte :: rest =>
    ((List.range 8).filter fun bit => byte.toNat.testBit bit).map (8 * index + ·) ++ bitsOf (index + 1) rest

def isAscending : List Nat → Bool
  | x :: y :: rest => x < y && isAscending (y :: rest)
  | _ => true

def runs : List Nat → Except Fault (List Nat)
  | first :: more :: rest =>
    if first + more < 65536 then do return List.range' first (more + 1) ++ (← runs rest) else .error .runOverflow
  | _ => .ok []

def runCounts : List Nat → List Nat
  | _ :: more :: rest => more :: runCounts rest
  | _ => []

/-- Reads a container of a cardinality. Runs become a list or a field by the sum of their counts, which may be less
or more than the number of their ids. -/
def readContainer (isRuns : Bool) (high cardinality : Nat) : Reading Container := do
  if isRuns then
    let words := halves (← Reading.take (4 * (← Reading.word 2)))
    return { high, lows := ← runs words, listed := (runCounts words).foldl (· + ·) 0 ≤ listLimit }
  else if cardinality ≤ listLimit then
    let lows := halves (← Reading.take (2 * cardinality))
    if isAscending lows then return { high, lows, listed := true } else throw .unsorted
  else
    let lows := bitsOf 0 (← Reading.take 8192)
    if lows.length = cardinality then return { high, lows, listed := false } else throw .wrongCardinality

def readContainers (isRuns : Nat → Bool) : (index : Nat) → (described : List Nat) → Reading (List Container)
  | index, high :: less :: rest => do
    let container ← readContainer (isRuns index) high (less + 1)
    return container :: (← readContainers isRuns (index + 1) rest)
  | _, _ => return []

def Container.ids (container : Container) : IdSet :=
  IdSet.ofList (container.lows.map fun low => UInt32.ofNat (container.high * 65536 + low))

def Container.isMisfit (container : Container) : Bool :=
  container.listed != decide (container.ids.size ≤ listLimit)

def ofContainers (containers : List Container) : Bitmap where
  ids := IdSet.ofList (containers.flatMap fun container => container.ids.toList)
  misfits := (containers.filter Container.isMisfit).map (·.high)
  empties := (containers.filter fun container => container.lows.isEmpty).map (·.high)

def join (containers : List Container) : Reading Bitmap :=
  if isAscending (containers.map (·.high)) then return ofContainers containers else throw .unsorted

def read : Reading Bitmap := do
  let cookie ← Reading.word 4
  let (count, hasRuns) ←
    if cookie = plainCookie then pure (← Reading.word 4, false)
    else if cookie % 65536 = runCookie then pure (cookie / 65536 + 1, true)
    else throw .unknownCookie
  let flags ← if hasRuns then Reading.take ((count + 7) / 8) else pure []
  if count > 65536 then throw .tooManyContainers
  let described := halves (← Reading.take (4 * count))
  if !hasRuns || offsetThreshold ≤ count then
    let _ ← Reading.take (4 * count)
  let isRuns (index : Nat) : Bool := (flags.getD (index / 8) 0).toNat.testBit (index % 8)
  join (← readContainers isRuns 0 described)

/-- The bitmap that bytes hold; bytes behind it do not matter. -/
def decode (bytes : Bytes) : Except Fault Bitmap := do
  let (bitmap, _) ← read bytes
  return bitmap

end Bitmap

end SupplyGraph
