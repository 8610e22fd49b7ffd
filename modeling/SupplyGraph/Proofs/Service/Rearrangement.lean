import SupplyGraph.Proofs.Format.Fields
import SupplyGraph.Proofs.Format.MessagePack
import SupplyGraph.Service
import SupplyGraph.Store.Memory

/-!
The order in which a request has its entries does not count, nor do entries with names that its command does not know;
and the same goes for the records of nodes and of edges in it. So a payload of the same entries, in another order and
with others among them, gets the same reply and leaves the same service behind.
-/

namespace SupplyGraph.Request

open Value (AlikeEntries Rearranged Related)

def command : Request → Command
  | addNodes .. => .addNodes
  | addDependencies _ => .addDependencies
  | cache => .cache
  | clear => .clear
  | getNode _ => .getNode
  | getNodeByName _ => .getNodeByName
  | getNodesByGlob _ => .getNodesByGlob
  | allKeys => .allKeys
  | query .. => .query
  | customLeaderboard .. => .customLeaderboard
  | check => .check
  | shutdown => .shutdown

theorem command_of_ofFields? {command : Command} {fields : List (Option Value)} {request : Request}
    (reads : ofFields? command fields = some request) : request.command = command := by
  unfold ofFields? at reads
  split at reads <;> simp only [bind, Option.bind_eq_some_iff, Option.some.injEq, reduceCtorEq] at reads <;>
    grind [Request.command]

def itemNames? (field : String) : Option (List String) :=
  if field = "nodes" then some ["type", "name", "metadata"]
  else if field = "edges" then some ["from", "to"]
  else none

inductive AlikeRecord (names : List String) : Value → Value → Prop
  | same (record : Value) : AlikeRecord names record record
  | map {entries others : List (Value × Value)} (rearranged : Rearranged names entries others) :
      AlikeRecord names (.map entries) (.map others)

inductive AlikeField (field : String) : Value → Value → Prop
  | same (value : Value) : AlikeField field value value
  | list {names : List String} {items others : List Value} (lists : itemNames? field = some names)
      (alike : List.Forall₂ (AlikeRecord names) items others) : AlikeField field (.list items) (.list others)

inductive AlikeEntry : Value × Value → Value × Value → Prop
  | same (entry : Value × Value) : AlikeEntry entry entry
  | field {name : String} {value other : Value} (alike : AlikeField name value other) :
      AlikeEntry (.text name, value) (.text name, other)

/-- The entries of a request for a command, the records in it and the entries themselves in any order, with entries of
any other names among them. -/
def Rearranges (command : Command) (entries others : List (Value × Value)) : Prop :=
  ∃ between, List.Forall₂ AlikeEntry entries between ∧ Rearranged ("cmd" :: command.fieldNames) between others

theorem mapM_alike {α : Type} {names : List String} {read : Value → Option α}
    (reads : ∀ {item other}, AlikeRecord names item other → read other = read item) {items others : List Value}
    (alike : List.Forall₂ (AlikeRecord names) items others) : others.mapM read = items.mapM read := by
  induction alike with
  | nil => rfl
  | cons first rest ih => rw [List.mapM_cons, List.mapM_cons, reads first, ih]

theorem AlikeRecord.fields? {names : List String} {record other : Value} (alike : AlikeRecord names record other) :
    other.fields? names = record.fields? names := by
  cases alike with
  | same => rfl
  | map rearranged => exact Value.fields?_rearranged rearranged

theorem newNode?_alike {record other : Value} (alike : AlikeRecord ["type", "name", "metadata"] record other) :
    newNode? other = newNode? record := by
  rw [newNode?, newNode?, alike.fields?]

theorem namedEdge?_alike {record other : Value} (alike : AlikeRecord ["from", "to"] record other) :
    namedEdge? other = namedEdge? record := by
  rw [namedEdge?, namedEdge?, alike.fields?]

theorem AlikeField.eq {field : String} {value other : Value} (alike : AlikeField field value other)
    (single : itemNames? field = none) : value = other := by
  cases alike with
  | same => rfl
  | list lists => cases single.symm.trans lists

theorem eq_of_related {names : List String} {fields others : List (Option Value)}
    (related : Related AlikeField names fields others) (single : ∀ name ∈ names, itemNames? name = none) :
    fields = others := by
  induction related with
  | nil => rfl
  | cons first rest ih =>
      obtain ⟨here, later⟩ := List.forall_mem_cons.mp single
      rw [ih later]
      cases first with
      | none => rfl
      | some alike => rw [alike.eq here]

theorem readList_alike {α : Type} {field : String} {names : List String} {read : Value → Option α}
    (lists : itemNames? field = some names)
    (reads : ∀ {item other}, AlikeRecord names item other → read other = read item) {value other : Value}
    (alike : AlikeField field value other) : (do (← other.list?).mapM read) = (do (← value.list?).mapM read) := by
  cases alike with
  | same => rfl
  | list listsToo alike =>
      obtain rfl := Option.some.inj (lists.symm.trans listsToo)
      exact mapM_alike reads alike

theorem readEdges_alike {value other : Value} (alike : AlikeField "edges" value other) :
    (do (← other.list?).mapM namedEdge?) = (do (← value.list?).mapM namedEdge?) :=
  readList_alike rfl namedEdge?_alike alike

theorem readOptionalEdges_alike {field other : Option Value} (alike : Option.Rel (AlikeField "edges") field other) :
    (do (← optionalList? other).mapM namedEdge?) = (do (← optionalList? field).mapM namedEdge?) := by
  cases alike with
  | none => rfl
  | some alike => exact readEdges_alike alike

theorem ofFields?_addNodes (nodes : Value) (edges : Option Value) : ofFields? .addNodes [some nodes, edges] = (do
    let listed ← (do (← nodes.list?).mapM newNode?)
    let linked ← (do (← optionalList? edges).mapM namedEdge?)
    some (.addNodes listed linked)) := by
  rw [ofFields?, bind_assoc]
  simp only [bind_assoc]

theorem ofFields?_related {command : Command} {fields others : List (Option Value)}
    (related : Related AlikeField command.fieldNames fields others) :
    ofFields? command others = ofFields? command fields := by
  cases command with
  | addNodes =>
      cases related with | cons nodes rest =>
      cases rest with | cons edges rest =>
      cases rest
      cases nodes with
      | none => rfl
      | @some value other alike =>
          rw [ofFields?_addNodes, ofFields?_addNodes, readList_alike rfl newNode?_alike alike,
            readOptionalEdges_alike edges]
  | addDependencies =>
      cases related with | cons edges rest =>
      cases rest
      cases edges with
      | none => rfl
      | @some value other alike =>
          rw [ofFields?, ofFields?, ← bind_assoc, readEdges_alike alike, bind_assoc]
  | cache | clear | getNode | getNodeByName | getNodesByGlob | allKeys | query | customLeaderboard | check | shutdown =>
      rw [eq_of_related related (by decide)]

theorem AlikeEntry.key {entry other : Value × Value} (alike : AlikeEntry entry other) : entry.1 = other.1 := by
  cases alike <;> rfl

theorem alikeEntries_of_alike {entries between : List (Value × Value)} (alike : List.Forall₂ AlikeEntry entries between)
    (names : List String) : AlikeEntries AlikeField names entries between := by
  refine alike.imp fun entry other alike => ⟨alike.key, fun index name isKey named => ?_⟩
  cases alike with
  | same => exact .same _
  | field alike =>
      obtain rfl := Option.some.inj ((Value.getElem?_of_key? isKey).symm.trans named)
      exact alike

theorem filter_alike {entries between : List (Value × Value)} (alike : List.Forall₂ AlikeEntry entries between) :
    between.filter (fun (key, _) => isCommandKey key) = entries.filter (fun (key, _) => isCommandKey key) ∧
      List.Forall₂ AlikeEntry (entries.filter fun (key, _) => !isCommandKey key)
        (between.filter fun (key, _) => !isCommandKey key) := by
  induction alike with
  | nil => exact ⟨rfl, .nil⟩
  | @cons entry other entries between first rest ih =>
      simp only [List.filter_cons, ← first.key]
      cases isCommand : isCommandKey entry.1 with
      | false => exact ⟨ih.1, .cons first ih.2⟩
      | true =>
          refine ⟨congrArg₂ List.cons ?_ ih.1, ih.2⟩
          cases first with
          | same => rfl
          | @field name value other alike =>
              have named : name = "cmd" := beq_iff_eq.mp isCommand
              rw [alike.eq (named ▸ rfl)]

theorem fieldsOf?_map (command : Command) (entries : List (Value × Value)) : fieldsOf? command (.map entries) =
    if command.fieldNames = [] then some [] else (Value.map entries).fields? command.fieldNames := by
  cases command <;> rfl

theorem fieldsOf?_alike {command : Command} {entries between : List (Value × Value)}
    (alike : List.Forall₂ AlikeEntry entries between) {fields : List (Option Value)}
    (given : fieldsOf? command (.map entries) = some fields) :
    ∃ others, fieldsOf? command (.map between) = some others ∧
      Related AlikeField command.fieldNames fields others := by
  rw [fieldsOf?_map] at given ⊢
  split_ifs at given ⊢ with noFields
  · obtain rfl := Option.some.inj given
    exact ⟨[], rfl, noFields ▸ .nil⟩
  · exact Value.fields?_alike (alikeEntries_of_alike alike _) given

theorem fieldsOf?_rearranged {command : Command} {between others : List (Value × Value)}
    (rearranged : Rearranged command.fieldNames between others) :
    fieldsOf? command (.map others) = fieldsOf? command (.map between) := by
  rw [fieldsOf?_map, fieldsOf?_map, Value.fields?_rearranged rearranged]

theorem filter_rearranged {names : List String} {between others : List (Value × Value)}
    (rearranged : Rearranged ("cmd" :: names) between others) :
    (others.filter fun (key, _) => isCommandKey key).Perm (between.filter fun (key, _) => isCommandKey key) ∧
      Rearranged names (between.filter fun (key, _) => !isCommandKey key)
        (others.filter fun (key, _) => !isCommandKey key) := by
  obtain ⟨extras, perm, unknown⟩ := rearranged
  have noCommand : ∀ entry ∈ extras, isCommandKey entry.1 = false := by
    intro entry member
    obtain ⟨name, key, absent⟩ := unknown entry member
    rw [key]
    exact beq_eq_false_iff_ne.mpr fun same => absent (same ▸ List.mem_cons_self)
  have commands : extras.filter (fun (key, _) => isCommandKey key) = [] :=
    List.filter_eq_nil_iff.mpr fun entry member => by simp [noCommand entry member]
  have kept : extras.filter (fun (key, _) => !isCommandKey key) = extras :=
    List.filter_eq_self.mpr fun entry member => by simp [noCommand entry member]
  constructor
  · have filtered := perm.filter fun (key, _) => isCommandKey key
    rwa [List.filter_append, commands, List.append_nil] at filtered
  · have filtered := perm.filter fun (key, _) => !isCommandKey key
    rw [List.filter_append, kept] at filtered
    refine ⟨extras, filtered, fun entry member => ?_⟩
    obtain ⟨name, key, absent⟩ := unknown entry member
    exact ⟨name, key, fun listed => absent (List.mem_cons_of_mem _ listed)⟩

theorem ofValue?_map_eq_some_iff {numbered : Bool} {request : Request} {entries : List (Value × Value)} :
    ofValue? numbered (.map entries) = some request ↔
      ∃ key value command fields, entries.filter (fun (key, _) => isCommandKey key) = [(key, value)] ∧
        Command.ofValue? numbered value = some command ∧
        fieldsOf? command (.map (entries.filter fun (key, _) => !isCommandKey key)) = some fields ∧
        ofFields? command fields = some request := by
  rw [ofValue?]
  constructor
  · intro reads
    split at reads
    case h_1 key value single =>
      obtain ⟨command, named, reads⟩ := Option.bind_eq_some_iff.mp reads
      obtain ⟨fields, given, reads⟩ := Option.bind_eq_some_iff.mp reads
      exact ⟨key, value, command, fields, single, named, given, reads⟩
    case h_2 => cases reads
  · rintro ⟨key, value, command, fields, single, named, given, reads⟩
    rw [single]
    simp only [named, given, reads, bind, Option.bind]

theorem ofValue?_rearranged {numbered : Bool} {request : Request} {entries others : List (Value × Value)}
    (reads : ofValue? numbered (.map entries) = some request) (rearranges : Rearranges request.command entries others) :
    ofValue? numbered (.map others) = some request := by
  obtain ⟨key, value, command, fields, single, named, given, read⟩ := ofValue?_map_eq_some_iff.mp reads
  rw [command_of_ofFields? read] at rearranges
  obtain ⟨between, alike, rearranged⟩ := rearranges
  obtain ⟨sameCommand, othersAlike⟩ := filter_alike alike
  obtain ⟨perm, rearranged⟩ := filter_rearranged rearranged
  obtain ⟨otherFields, givenToo, related⟩ := fieldsOf?_alike othersAlike given
  rw [sameCommand, single] at perm
  refine ofValue?_map_eq_some_iff.mpr ⟨key, value, command, otherFields, List.perm_singleton.mp perm, named, ?_, ?_⟩
  · rw [fieldsOf?_rearranged rearranged, givenToo]
  · rw [ofFields?_related related, read]

end SupplyGraph.Request

namespace SupplyGraph.Service

open MessagePack (Encodes)

variable {σ : Type} [GraphStore σ]

theorem decodeRequest_encodes {value : Value} {payload : Bytes}
    (encodes : Encodes MessagePack.nestingLimit value payload) :
    decodeRequest payload = Request.ofValue? true value := by
  have read := MessagePack.readNested_encodes encodes []
  rw [List.append_nil] at read
  rw [decodeRequest, MessagePack.read, read]
  rfl

/-- A valid request, its entries and those of its records in any order and with entries of other names among them, gets
the same reply and leaves the same service behind; in whatever form both are written, and whatever reaches the request
while it is answered. -/
theorem handleFrame_rearranged {request : Request} {entries others : List (Value × Value)} {payload other : Bytes}
    (valid : Request.ofValue? true (.map entries) = some request)
    (rearranges : Request.Rearranges request.command entries others)
    (encodes : Encodes MessagePack.nestingLimit (.map entries) payload)
    (encodesOther : Encodes MessagePack.nestingLimit (.map others) other) :
    decodeRequest payload = some request ∧ decodeRequest other = some request ∧
      ∀ (cancellation : Cancellation) (service : Service σ),
        handleFrameDuring cancellation other service = handleFrameDuring cancellation payload service ∧
          handleFrame other service = handleFrame payload service := by
  have decodes := (decodeRequest_encodes encodes).trans valid
  have decodesOther := (decodeRequest_encodes encodesOther).trans (Request.ofValue?_rearranged valid rearranges)
  have same (cancellation : Cancellation) (service : Service σ) :
      handleFrameDuring cancellation other service = handleFrameDuring cancellation payload service := by
    rw [handleFrameDuring, handleFrameDuring, decodes, decodesOther]
  exact ⟨decodes, decodesOther, fun cancellation service => ⟨same cancellation service, same _ service⟩⟩

def plainRequest : List (String × Document) :=
  [("cmd", .text "addNodes"), ("nodes", .list [.record [("type", .text "library"), ("name", .text "a")]])]

def turnedRequest : List (String × Document) :=
  [("note", .list [.bool true]),
    ("nodes", .list [.record [("name", .text "a"), ("from", .natural 7), ("type", .text "library")]]),
    ("cmd", .text "addNodes")]

theorem rearranges_turnedRequest :
    Request.Rearranges .addNodes (MessagePack.entriesOf plainRequest) (MessagePack.entriesOf turnedRequest) := by
  have record : Request.AlikeRecord ["type", "name", "metadata"]
      (.map [(.text "type", .text "library"), (.text "name", .text "a")])
      (.map [(.text "name", .text "a"), (.text "from", .unsigned 1 7), (.text "type", .text "library")]) := by
    refine .map ⟨[(.text "from", .unsigned 1 7)], ?_, by simp⟩
    exact @List.perm_append_comm _ [_, _] [_]
  refine ⟨[(.text "cmd", .text "addNodes"), (.text "nodes", .list [_])], ?_,
    [(.text "note", .list [.bool true])], List.reverse_perm [_, _, _], by simp [Request.Command.fieldNames]⟩
  exact .cons (.same _) (.cons (.field (.list rfl (.cons record .nil))) .nil)

theorem handleFrame_rearranged_turnedRequest :
    Request.ofValue? true (.map (MessagePack.entriesOf plainRequest)) =
        some (.addNodes [{ type := "library", name := "a", metadata := [] }] []) ∧
      Request.Rearranges .addNodes (MessagePack.entriesOf plainRequest) (MessagePack.entriesOf turnedRequest) ∧
      handleFrame (MessagePack.write (.record turnedRequest)) (start : Service MemoryStore) =
        handleFrame (MessagePack.write (.record plainRequest)) start := by
  have valid : Request.ofValue? true (.map (MessagePack.entriesOf plainRequest)) =
      some (.addNodes [{ type := "library", name := "a", metadata := [] }] []) := rfl
  have written : MessagePack.Fits 3 (.record plainRequest) := by
    refine .named ["cmd", "nodes"] rfl (by decide) ⟨.text (by decide), .list (by decide) ?_⟩
    rw [List.forall_mem_singleton]
    exact .named ["type", "name"] rfl (by decide) ⟨.text (by decide), .text (by decide)⟩
  have turned : MessagePack.Fits 3 (.record turnedRequest) := by
    refine .named ["note", "nodes", "cmd"] rfl (by decide)
      ⟨.list (by decide) ?_, .list (by decide) ?_, .text (by decide)⟩ <;> rw [List.forall_mem_singleton]
    · exact .bool true
    · exact .named ["name", "from", "type"] rfl (by decide) ⟨.text (by decide), .natural (by decide), .text (by decide)⟩
  have replies := handleFrame_rearranged (σ := MemoryStore) valid rearranges_turnedRequest
    ((MessagePack.encodes_write written).mono (by decide)) ((MessagePack.encodes_write turned).mono (by decide))
  exact ⟨valid, rearranges_turnedRequest, (replies.2.2 .never start).2⟩

end SupplyGraph.Service
