import SupplyGraph.Text.Blank
import SupplyGraph.Text.Number

/-!
The settings of a server, from the arguments of its command line and from variables of its environment. An
argument wins over a variable, and a variable over the default.
-/

namespace SupplyGraph

inductive LogLevel
  | trace | debug | info | warn | error
deriving DecidableEq

namespace LogLevel

def all : List LogLevel := [error, warn, info, debug, trace]

def name : LogLevel → String
  | trace => "TRACE"
  | debug => "DEBUG"
  | info => "INFO"
  | warn => "WARN"
  | error => "ERROR"

/-- A level by its number, or by its name in letters of either case. -/
def ofString? (text : String) : Option LogLevel :=
  match Text.readNumber UInt64.size text.toList with
  | .ok number => if number = 0 then none else all[number - 1]?
  | .error _ => all.find? fun level => level.name.toList == text.toList.map Char.toUpper

end LogLevel

structure Settings where
  database : Option String := none
  socket : String := "/tmp/minefield.sock"
  /-- The threads for leaderboards; as many as the machine runs at once when there is none. -/
  concurrency : Option Nat := none
  graceSeconds : Nat := 5
  logLevel : LogLevel := .info
deriving DecidableEq

inductive SettingsFault
  | helpRequested
  | versionRequested
  | unknownArgument (argument : String)
  | givenTwice
  | valueForFlag
  | missingValue
  | emptyPath
  | invalidThreadCount (text : String) (fault : Text.NumberFault)
  | invalidSeconds (fault : Text.NumberFault)
  | invalidLevel
deriving DecidableEq

namespace Settings

def version : String := "minefield-server 0.1.0\n"

def help : String :=
  "Supply-chain graph server\n\n" ++
  "Usage: minefield-server [OPTIONS] [DB_PATH]\n\n" ++
  "Arguments:\n" ++
  "  [DB_PATH]  database; in-memory storage when omitted [env: MINEFIELD_DB]\n\n" ++
  "Options:\n" ++
  "      --socket <SOCKET_PATH>       Unix socket path [env: MINEFIELD_SOCKET] [default: /tmp/minefield.sock]\n" ++
  "      --concurrency <CONCURRENCY>  Leaderboard worker threads (at least 1) [env: MINEFIELD_CONCURRENCY]\n" ++
  "      --grace-secs <GRACE_SECS>    Seconds to wait for clients on shutdown [env: MINEFIELD_GRACE_SECS] [default: 5]\n" ++
  "      --log <LOG_LEVEL>            trace, debug, info, warn or error [env: MINEFIELD_LOG] [default: INFO]\n" ++
  "  -h, --help                       Print help\n" ++
  "  -V, --version                    Print version\n"

inductive Item
  | database | socket | concurrency | grace | log
deriving DecidableEq

namespace Item

def all : List Item := [database, socket, concurrency, grace, log]

/-- The items that have an option; the database is the argument that is none. -/
def ofOption? : String → Option Item
  | "socket" => some socket
  | "concurrency" => some concurrency
  | "grace-secs" => some grace
  | "log" => some log
  | _ => none

def variableName : Item → String
  | database => "MINEFIELD_DB"
  | socket => "MINEFIELD_SOCKET"
  | concurrency => "MINEFIELD_CONCURRENCY"
  | grace => "MINEFIELD_GRACE_SECS"
  | log => "MINEFIELD_LOG"

end Item

def trim (chars : List Char) : List Char :=
  ((chars.dropWhile Text.isBlank).reverse.dropWhile Text.isBlank).reverse

def readPath (text : String) : Except SettingsFault String :=
  if text.isEmpty then .error .emptyPath else .ok text

def readThreadCount (text : String) : Except SettingsFault Nat :=
  match Text.readNumber UInt64.size (trim text.toList) with
  | .ok count => .ok (max count 1)
  | .error fault => .error (.invalidThreadCount text fault)

def set (settings : Settings) (item : Item) (text : String) : Except SettingsFault Settings :=
  match item with
  | .database => do return { settings with database := some (← readPath text) }
  | .socket => do return { settings with socket := ← readPath text }
  | .concurrency => do return { settings with concurrency := some (← readThreadCount text) }
  | .grace => do
    return { settings with graceSeconds := ← (Text.readNumber UInt64.size text.toList).mapError .invalidSeconds }
  | .log =>
    match LogLevel.ofString? text with
    | some level => .ok { settings with logLevel := level }
    | none => .error .invalidLevel

structure Progress where
  settings : Settings := {}
  given : List Item := []
  pending : Option (Item × Option String) := none
  databaseSeen : Bool := false
  /-- Behind two hyphens on their own nothing is an option. -/
  optionsEnded : Bool := false

inductive Argument
  | endOfOptions
  | long (name : String) (value : Option String)
  | short (letters : List Char)
  | plain
deriving DecidableEq

def Argument.ofString (text : String) : Argument :=
  match text.toList with
  | ['-', '-'] => .endOfOptions
  | '-' :: '-' :: rest =>
    let name := rest.takeWhile (· ≠ '=')
    let value := rest.dropWhile (· ≠ '=')
    .long (String.ofList name) (if value.isEmpty then none else some (String.ofList value.tail))
  | ['-'] => .plain
  | '-' :: letters => .short letters
  | _ => .plain

namespace Progress

def give (progress : Progress) (item : Item) (text : String) : Except SettingsFault Progress := do
  if item ∈ progress.given then throw .givenTwice
  return { progress with settings := ← progress.settings.set item text, given := item :: progress.given }

def settle (progress : Progress) : Except SettingsFault Progress :=
  match progress.pending with
  | none => .ok progress
  | some (_, none) => .error .missingValue
  | some (item, some text) => { progress with pending := none }.give item text

def takePlain (progress : Progress) (text : String) : Except SettingsFault Progress := do
  if progress.databaseSeen then throw (.unknownArgument text)
  return { ← progress.settle with pending := some (.database, some text), databaseSeen := true }

def takeLong (progress : Progress) (text name : String) (value : Option String) : Except SettingsFault Progress :=
  match Item.ofOption? name, value with
  | some item, some value => do (← progress.settle).give item value
  | some item, none => do return { ← progress.settle with pending := some (item, none) }
  | none, value =>
    if name = "help" ∨ name = "version" then do
      if value.isSome then throw .valueForFlag
      let _ ← progress.settle
      throw (if name = "help" then .helpRequested else .versionRequested)
    else .error (.unknownArgument text)

def takeShort (progress : Progress) (text : String) (letters : List Char) : Except SettingsFault Progress := do
  let request ← match letters.head? with
    | some 'h' => pure SettingsFault.helpRequested
    | some 'V' => pure SettingsFault.versionRequested
    | _ => throw (.unknownArgument text)
  let _ ← progress.settle
  throw request

def take (progress : Progress) (text : String) : Except SettingsFault Progress :=
  if progress.optionsEnded then progress.takePlain text
  else match Argument.ofString text with
    | .endOfOptions => .ok { progress with optionsEnded := true }
    | .long name value => progress.takeLong text name value
    | .short letters => progress.takeShort text letters
    | .plain =>
      match progress.pending with
      | some (item, none) => .ok { progress with pending := some (item, some text) }
      | _ => progress.takePlain text

/-- Sets an item from its variable, unless an argument did. -/
def takeVariable (environment : String → Option String) (progress : Progress) (item : Item) :
    Except SettingsFault Progress :=
  if item ∈ progress.given then .ok progress
  else match environment item.variableName with
    | some text => progress.give item text
    | none => .ok progress

end Progress

def read (arguments : List String) (environment : String → Option String) : Except SettingsFault Settings := do
  let progress ← (← arguments.foldlM Progress.take {}).settle
  return (← Item.all.foldlM (Progress.takeVariable environment) progress).settings

end Settings

namespace SettingsFault

def message : SettingsFault → String
  | helpRequested => Settings.help
  | versionRequested => Settings.version
  | unknownArgument argument => s!"unexpected argument '{argument}' found"
  | givenTwice => "an argument cannot be used multiple times"
  | valueForFlag => "unexpected value for a flag"
  | missingValue => "a value is required"
  | emptyPath => "a path is required"
  | invalidThreadCount text fault => s!"invalid thread count '{text}': {fault.message}"
  | invalidSeconds fault => fault.message
  | invalidLevel => "a level is trace, debug, info, warn or error"

end SettingsFault

end SupplyGraph
