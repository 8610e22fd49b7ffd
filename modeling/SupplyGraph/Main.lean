import SupplyGraph.Service
import SupplyGraph.Service.Frame
import SupplyGraph.Settings
import SupplyGraph.Store.Memory
import SupplyGraph.Store.Persistent

/-!
The command line. It reads the settings, then answers the frames on standard input on standard output, one
after the other, until the input ends or a client asks for the end. The graph lives as long as the program; with
a database it is held in the tables of the persistent store.
-/

namespace SupplyGraph

partial def readUpTo (input : IO.FS.Stream) (count : Nat) (done : ByteArray) : IO ByteArray := do
  if count ≤ done.size then return done
  let more ← input.read (USize.ofNat (count - done.size))
  if more.isEmpty then return done else readUpTo input count (done ++ more)

def readPayload (input : IO.FS.Stream) : IO (Option Bytes) := do
  let header ← readUpTo input Frame.headerSize .empty
  let frame ← readUpTo input (Frame.headerSize + Frame.awaited header.data.toList) header
  match Frame.read frame.data.toList with
  | .payload payload _ => return some payload
  | .ended _ => return none
  | .faulty fault _ => throw (IO.userError fault.message)

def writePayload (output : IO.FS.Stream) (payload : Bytes) : IO Unit := do
  match Frame.write? payload with
  | some frame =>
    output.write ⟨frame.toArray⟩
    output.flush
  | none => throw (IO.userError "frame exceeds u32 length")

partial def serve {σ : Type} [GraphStore σ] (input output : IO.FS.Stream) (service : Service σ) : IO Unit := do
  match ← readPayload input with
  | none => return
  | some payload =>
    let (reply, service) := service.handleFrame payload
    writePayload output reply
    unless service.shuttingDown do
      serve input output service

def serveWith (settings : Settings) : IO Unit := do
  let input ← IO.getStdin
  let output ← IO.getStdout
  match settings.database with
  | none => serve input output (.start : Service MemoryStore)
  | some _ => serve input output (.start : Service PersistentStore)

def report (fault : SettingsFault) : IO UInt32 := do
  match fault with
  | .helpRequested | .versionRequested =>
    IO.print fault.message
    return 0
  | _ =>
    IO.eprintln ("error: " ++ fault.message)
    return 2

def runCommand (arguments : List String) : IO UInt32 := do
  let environment ← Settings.Item.all.mapM fun item => return (item.variableName, ← IO.getEnv item.variableName)
  match Settings.read arguments fun name => (environment.lookup name).join with
  | .error fault => report fault
  | .ok settings =>
    serveWith settings
    return 0

end SupplyGraph

def main (arguments : List String) : IO UInt32 := SupplyGraph.runCommand arguments
