import SupplyGraph.Bytes

/-!
Frames on a byte stream: the length of the payload in four bytes, the highest first, and then the payload.
-/

namespace SupplyGraph.Frame

def maxPayload : Nat := 100 * 1024 * 1024

def maxWritten : Nat := UInt32.size - 1

inductive ReadFault
  | tooLarge (length : Nat)
  | cutOff
deriving DecidableEq

def ReadFault.message : ReadFault → String
  | tooLarge length => s!"Message too large: {length} bytes"
  | cutOff => "failed to fill whole buffer"

/-- What a read comes to, and what it leaves of the stream. -/
inductive Front
  | payload (payload rest : Bytes)
  | ended (rest : Bytes)
  | faulty (fault : ReadFault) (rest : Bytes)
deriving DecidableEq

def Front.rest : Front → Bytes
  | payload _ rest | ended rest | faulty _ rest => rest

def headerSize : Nat := 4

/-- Takes one frame off a stream, or all that there is of it; fewer bytes than a length has are its end. -/
def read (stream : Bytes) : Front :=
  match stream.split? headerSize with
  | none => .ended []
  | some (header, rest) =>
    let length := Bytes.ofBigEndian header
    if maxPayload < length then .faulty (.tooLarge length) rest
    else match rest.split? length with
      | some (payload, rest) => .payload payload rest
      | none => .faulty .cutOff []

/-- How many bytes to wait for behind a header; too long a payload is not waited for. -/
def awaited (header : Bytes) : Nat :=
  let length := Bytes.ofBigEndian header
  if maxPayload < length then 0 else length

def write? (payload : Bytes) : Option Bytes :=
  if payload.length ≤ maxWritten then some (Bytes.bigEndian headerSize payload.length ++ payload) else none

theorem length_lt_of_read {stream payload rest : Bytes} (read : read stream = .payload payload rest) :
    rest.length < stream.length := by
  unfold Frame.read Bytes.split? headerSize at read
  grind

def readAll (stream : Bytes) : List Bytes × Option ReadFault :=
  match _front : read stream with
  | .payload payload rest =>
    let (others, fault) := readAll rest
    (payload :: others, fault)
  | .ended _ => ([], none)
  | .faulty fault _ => ([], some fault)
termination_by stream.length
decreasing_by exact length_lt_of_read _front

end SupplyGraph.Frame
