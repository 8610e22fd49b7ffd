import SupplyGraph.Engine
import SupplyGraph.Format.Record

/-!
The requests that clients send, and how values give them. A request is a map with the entry `cmd` that names the
command, or a list that starts with the command; what else it holds are the fields of the command.
-/

namespace SupplyGraph

inductive Request
  | addNodes (nodes : List NewNode) (edges : List (String × String))
  | addDependencies (edges : List (String × String))
  | cache
  | clear
  | getNode (id : NodeId)
  | getNodeByName (name : String)
  | getNodesByGlob (pattern : String)
  | allKeys
  | query (script : String) (fallback : Option String)
  | customLeaderboard (script : String) (limit : Option Nat)
  | check
  | shutdown
deriving DecidableEq

namespace Request

inductive Command
  | addNodes | addDependencies | cache | clear | getNode | getNodeByName | getNodesByGlob | allKeys | query
  | customLeaderboard | check | shutdown
deriving DecidableEq

namespace Command

def all : List Command :=
  [addNodes, addDependencies, cache, clear, getNode, getNodeByName, getNodesByGlob, allKeys, query, customLeaderboard,
    check, shutdown]

def name : Command → String
  | addNodes => "addNodes"
  | addDependencies => "addDependencies"
  | cache => "cache"
  | clear => "clear"
  | getNode => "getNode"
  | getNodeByName => "getNodeByName"
  | getNodesByGlob => "getNodesByGlob"
  | allKeys => "allKeys"
  | query => "query"
  | customLeaderboard => "customLeaderboard"
  | check => "check"
  | shutdown => "shutdown"

def ofName? (name : String) : Option Command := all.find? fun command => command.name == name

/-- The command that a value names. Only MessagePack has numbers for commands. -/
def ofValue? (numbered : Bool) : Value → Option Command
  | .text name => ofName? name
  | .binary bytes => do ofName? (← bytes.toString?)
  | .unsigned _ n => if numbered then all[n]? else none
  | _ => none

def fieldNames : Command → List String
  | addNodes => ["nodes", "edges"]
  | addDependencies => ["edges"]
  | getNode => ["id"]
  | getNodeByName => ["name"]
  | getNodesByGlob => ["pattern"]
  | query => ["script", "defaultNodeName"]
  | customLeaderboard => ["script", "limit"]
  | cache | clear | allKeys | check | shutdown => []

end Command

def newNode? (value : Value) : Option NewNode := do
  match ← value.fields? ["type", "name", "metadata"] with
  | [some type, some name, metadata] =>
    some { type := ← type.text?, name := ← name.text?, metadata := Bytes.ofString (← Value.optionalText? metadata) }
  | _ => none

def namedEdge? (value : Value) : Option (String × String) := do
  match ← value.fields? ["from", "to"] with
  | [some parent, some child] => some (← parent.text?, ← child.text?)
  | _ => none

def optionalList? : Option Value → Option (List Value)
  | none => some []
  | some value => value.list?

def nullable? {α : Type} (read? : Value → Option α) : Option Value → Option (Option α)
  | none | some .null => some none
  | some value => (read? value).map some

def ofFields? : Command → List (Option Value) → Option Request
  | .addNodes, [some nodes, edges] => do
    some (.addNodes (← (← nodes.list?).mapM newNode?) (← (← optionalList? edges).mapM namedEdge?))
  | .addDependencies, [some edges] => do some (.addDependencies (← (← edges.list?).mapM namedEdge?))
  | .cache, [] => some .cache
  | .clear, [] => some .clear
  | .getNode, [some id] => do some (.getNode (← id.id?))
  | .getNodeByName, [some name] => do some (.getNodeByName (← name.text?))
  | .getNodesByGlob, [some pattern] => do some (.getNodesByGlob (← pattern.text?))
  | .allKeys, [] => some .allKeys
  | .query, [some script, fallback] => do some (.query (← script.text?) (← nullable? Value.text? fallback))
  | .customLeaderboard, [some script, limit] => do
    some (.customLeaderboard (← script.text?) (← nullable? (Value.naturalBelow? UInt64.size) limit))
  | .check, [] => some .check
  | .shutdown, [] => some .shutdown
  | _, _ => none

/-- The fields of a command; a command without fields takes any other entries, whatever their keys. -/
def fieldsOf? (command : Command) (value : Value) : Option (List (Option Value)) :=
  match command.fieldNames, value with
  | [], .map _ => some []
  | names, value => value.fields? names

def isCommandKey : Value → Bool
  | .text name => name == "cmd"
  | .binary bytes => bytes == Bytes.ofString "cmd"
  | _ => false

def ofValue? (numbered : Bool) : Value → Option Request
  | .map entries =>
    match entries.filter fun (key, _) => isCommandKey key with
    | [(_, value)] => do
      let command ← Command.ofValue? numbered value
      let others := entries.filter fun (key, _) => !isCommandKey key
      ofFields? command (← fieldsOf? command (.map others))
    | _ => none
  | .list (value :: fields) => do
    let command ← Command.ofValue? numbered value
    ofFields? command (← fieldsOf? command (.list fields))
  | _ => none

end Request

end SupplyGraph
