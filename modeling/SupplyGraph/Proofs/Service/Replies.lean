import SupplyGraph.Proofs.Format.MessagePack
import SupplyGraph.Proofs.Format.RoundTrip
import SupplyGraph.Service

/-!
Replies as clients see them: one value of the format and nothing behind it, the map of the reply's fields in their
order. The sets of a node's edges come back from their texts exactly if the node is plain, and so do replies from their
bytes.
-/

namespace SupplyGraph

open MessagePack (Encodes)

def Value.ofNatural (n : Nat) : Value := .unsigned (MessagePack.wordSize n) n

def Node.shown (node : Node) : Value :=
  .map [(.text "ID", .ofNatural node.id.toNat), (.text "type", .text node.type), (.text "name", .text node.name),
    (.text "metadata", .text (Base64.encode node.metadata)), (.text "childData", .text node.children.toText),
    (.text "parentData", .text node.parents.toText)]

def RankedNode.shown (entry : RankedNode) : Value :=
  .map [(.text "node", entry.node.shown),
    (.text "outputIds", .list (entry.outputIds.map fun id => .ofNatural id.toNat))]

namespace Response

def shown : Response → Value
  | ok done => .map [(.text "ok", .bool done)]
  | error message kind => .map [(.text "error", .text message), (.text "kind", .text kind)]
  | node found => .map [(.text "node", found.shown)]
  | nodes found => .map [(.text "nodes", .list (found.map Node.shown))]
  | leaderboard version entries =>
    .map [(.text "serviceVersion", .text version), (.text "entries", .list (entries.map RankedNode.shown))]
  | status word => .map [(.text "status", .text word)]
  | ingested report =>
    .map [(.text "nodesAdded", .ofNatural report.nodesAdded), (.text "edgesAdded", .ofNatural report.edgesAdded),
      (.text "skippedEdges", .list (report.skippedEdges.map fun edge =>
        .map [(.text "from", .text edge.1), (.text "to", .text edge.2)]))]

theorem valueOf_toDocument (response : Response) : MessagePack.valueOf response.toDocument = response.shown := by
  have node (found : Node) : MessagePack.valueOf found.toDocument = found.shown := rfl
  have entry (row : RankedNode) : MessagePack.valueOf (entryDocument row) = row.shown :=
    congrArg (fun ids => Value.map [(.text "node", row.node.shown), (.text "outputIds", .list ids)])
      (MessagePack.valuesOf_map (fun _ => rfl) row.outputIds)
  cases response with
  | nodes found =>
      exact congrArg (fun items => Value.map [(.text "nodes", .list items)]) (MessagePack.valuesOf_map node found)
  | leaderboard version entries =>
      exact congrArg (fun rows => Value.map [(.text "serviceVersion", .text version), (.text "entries", .list rows)])
        (MessagePack.valuesOf_map entry entries)
  | ingested report =>
      exact congrArg (fun edges => Value.map [(.text "nodesAdded", .ofNatural report.nodesAdded),
        (.text "edgesAdded", .ofNatural report.edgesAdded), (.text "skippedEdges", .list edges)])
          (MessagePack.valuesOf_map (fun _ => rfl) report.skippedEdges)
  | ok | error | node | status => rfl

def allNodes : Response → List Node
  | node found => [found]
  | nodes found => found
  | leaderboard _ entries => entries.map RankedNode.node
  | ok _ | error .. | status _ | ingested _ => []

def texts : Response → List String
  | error message kind => [message, kind]
  | leaderboard version _ => [version]
  | status word => [word]
  | ingested report => report.skippedEdges.flatMap fun edge => [edge.1, edge.2]
  | ok _ | node _ | nodes _ => []

def lengths : Response → List Nat
  | nodes found => [found.length]
  | leaderboard _ entries => entries.length :: entries.map fun entry => entry.outputIds.length
  | ingested report => [report.skippedEdges.length]
  | ok _ | error .. | node _ | status _ => []

def numbers : Response → List Nat
  | ingested report => [report.nodesAdded, report.edgesAdded]
  | ok _ | error .. | node _ | nodes _ | leaderboard .. | status _ => []

end Response

def Node.texts (node : Node) : List String :=
  [node.type, node.name, Base64.encode node.metadata, node.children.toText, node.parents.toText]

/-- All lengths have four bytes, and the numbers are those of eight. -/
structure Response.Fits (response : Response) : Prop where
  texts : ∀ text ∈ response.texts, (Bytes.ofString text).length < 2 ^ 32
  nodes : ∀ node ∈ response.allNodes, ∀ text ∈ node.texts, (Bytes.ofString text).length < 2 ^ 32
  lengths : ∀ length ∈ response.lengths, length < 2 ^ 32
  numbers : ∀ n ∈ response.numbers, n < 2 ^ 64

open MessagePack (Fits)

theorem Node.fits_toDocument {node : Node} (short : ∀ text ∈ node.texts, (Bytes.ofString text).length < 2 ^ 32)
    (limit : Nat) : Fits (limit + 1) node.toDocument := by
  simp only [texts, List.forall_mem_cons] at short
  obtain ⟨type, name, metadata, children, parents, -⟩ := short
  exact .named fieldNames rfl (by decide) ⟨.natural (Nat.lt_trans node.id.toNat_lt (by decide)), .text type, .text name,
    .text metadata, .text children, .text parents⟩

namespace Response

theorem Fits.toDocument {response : Response} (fits : response.Fits) : MessagePack.Fits 4 response.toDocument := by
  obtain ⟨texts, nodes, lengths, numbers⟩ := fits
  cases response with
  | ok done => exact .named ["ok"] rfl (by decide) (.bool done)
  | error message kind =>
      exact .named ["error", "kind"] rfl (by decide) ⟨.text (texts message (by simp [Response.texts])),
        .text (texts kind (by simp [Response.texts]))⟩
  | node found =>
      exact .named ["node"] rfl (by decide) (Node.fits_toDocument (nodes found (List.mem_singleton_self _)) 2)
  | nodes found =>
      refine .named ["nodes"] rfl (by decide) (.list ?_ ?_)
      · rw [List.length_map]
        exact lengths _ (List.mem_singleton_self _)
      · rw [List.forall_mem_map]
        exact fun node member => Node.fits_toDocument (nodes node member) 1
  | leaderboard version entries =>
      obtain ⟨few, short⟩ := List.forall_mem_cons.mp lengths
      rw [List.forall_mem_map] at short
      have nodes := List.forall_mem_map.mp nodes
      refine .named ["serviceVersion", "entries"] rfl (by decide)
        ⟨.text (texts version (List.mem_singleton_self _)), .list ?_ ?_⟩
      · rwa [List.length_map]
      · rw [List.forall_mem_map]
        intro entry member
        refine .named ["node", "outputIds"] rfl (by decide) ⟨Node.fits_toDocument (nodes entry member) 0, .list ?_ ?_⟩
        · rw [List.length_map]
          exact short entry member
        · rw [List.forall_mem_map]
          exact fun id _ => .natural (Nat.lt_trans id.toNat_lt (by decide))
  | status word => exact .named ["status"] rfl (by decide) (.text (texts word (List.mem_singleton_self _)))
  | ingested report =>
      refine .named ["nodesAdded", "edgesAdded", "skippedEdges"] rfl (by decide)
        ⟨.natural (numbers _ (by simp [Response.numbers])), .natural (numbers _ (by simp [Response.numbers])),
          .list ?_ ?_⟩
      · rw [List.length_map]
        exact lengths _ (List.mem_singleton_self _)
      · rw [List.forall_mem_map]
        intro edge member
        have short (name : String) (listed : name ∈ [edge.1, edge.2]) : (Bytes.ofString name).length < 2 ^ 32 :=
          texts name (List.mem_flatMap.mpr ⟨edge, member, listed⟩)
        exact .named ["from", "to"] rfl (by decide) ⟨.text (short edge.1 (by simp)), .text (short edge.2 (by simp))⟩

end Response

theorem Bitmap.toText_empty : (∅ : Bitmap).toText = "OjAAAAAAAAA=" := by
  have none : (∅ : Bitmap).containers = [] := (List.nil_merge _).trans (containersOf.eq_1 _)
  rw [toText, encode, none]
  decide

theorem Node.ofValue?_shown (node : Node) : ofValue? node.shown = do
    return { node with
      children := ← Bitmap.ofText? node.children.toText
      parents := ← Bitmap.ofText? node.parents.toText } :=
  ofValue?_of_fields rfl (Value.id?_unsigned _ node.id)

theorem Node.shown_inj {node other : Node} (plain : node.Plain) (otherPlain : other.Plain)
    (same : node.shown = other.shown) : node = other := by
  have read := (ofValue?_shown node).trans (rebuilt_iff node |>.mpr plain)
  rw [same, ofValue?_shown, (rebuilt_iff other).mpr otherPlain] at read
  exact (Option.some.inj read).symm

theorem Value.ofNatural_inj {n m : Nat} (same : ofNatural n = ofNatural m) : n = m := (Value.unsigned.inj same).2

theorem eq_of_map_eq {α β : Type} {f : α → β} {items others : List α}
    (inj : ∀ item ∈ items, ∀ other ∈ others, f item = f other → item = other) (same : items.map f = others.map f) :
    items = others := by
  induction items generalizing others with
  | nil => exact (List.map_eq_nil_iff.mp same.symm).symm
  | cons item items ih =>
      obtain ⟨other, others, rfl, first, later⟩ := List.map_eq_cons_iff.mp same.symm
      rw [inj item List.mem_cons_self other List.mem_cons_self first.symm, ih (fun item member other otherMember =>
        inj item (List.mem_cons_of_mem _ member) other (List.mem_cons_of_mem _ otherMember)) later.symm]

theorem RankedNode.shown_inj {entry other : RankedNode} (plain : entry.node.Plain) (otherPlain : other.node.Plain)
    (same : entry.shown = other.shown) : entry = other := by
  have parts : entry.node.shown = other.node.shown ∧
      entry.outputIds.map (fun id => Value.ofNatural id.toNat) =
        other.outputIds.map fun id => Value.ofNatural id.toNat := by
    simpa [shown] using same
  have ids := eq_of_map_eq (fun id _ other _ equal => UInt32.toNat_inj.mp (Value.ofNatural_inj equal)) parts.2
  cases entry
  cases other
  rw [RankedNode.mk.injEq]
  exact ⟨Node.shown_inj plain otherPlain parts.1, ids⟩

namespace Response

theorem shown_inj {response other : Response} (plain : ∀ node ∈ response.allNodes, node.Plain)
    (otherPlain : ∀ node ∈ other.allNodes, node.Plain) (same : response.shown = other.shown) : response = other := by
  cases response with
  | ok done =>
      cases other with
      | ok other => simpa [shown] using same
      | _ => simp [shown] at same
  | error message kind =>
      cases other with
      | error other otherKind => simpa [shown] using same
      | _ => simp [shown] at same
  | node found =>
      cases other with
      | node other =>
          have same : found.shown = other.shown := by simpa [shown] using same
          rw [Node.shown_inj (plain found (List.mem_singleton_self _)) (otherPlain other (List.mem_singleton_self _))
            same]
      | _ => simp [shown] at same
  | nodes found =>
      cases other with
      | nodes others =>
          have same : found.map Node.shown = others.map Node.shown := by simpa [shown] using same
          have listed : found = others := eq_of_map_eq (fun node member other otherMember =>
            Node.shown_inj (plain node member) (otherPlain other otherMember)) same
          rw [listed]
      | _ => simp [shown] at same
  | leaderboard version entries =>
      cases other with
      | leaderboard otherVersion others =>
          have same : version = otherVersion ∧ entries.map RankedNode.shown = others.map RankedNode.shown := by
            simpa [shown] using same
          have rows := eq_of_map_eq (fun entry member other otherMember => RankedNode.shown_inj
            (plain _ (List.mem_map_of_mem member)) (otherPlain _ (List.mem_map_of_mem otherMember))) same.2
          rw [same.1, rows]
      | _ => simp [shown] at same
  | status word =>
      cases other with
      | status other => simpa [shown] using same
      | _ => simp [shown] at same
  | ingested report =>
      cases other with
      | ingested other =>
          obtain ⟨nodesAdded, edgesAdded, skipped⟩ := report
          obtain ⟨otherNodes, otherEdges, otherSkipped⟩ := other
          simp only [shown, Value.map.injEq, List.cons.injEq, Prod.mk.injEq, true_and, and_true,
            Value.list.injEq] at same
          have edges := eq_of_map_eq (fun edge _ other _ equal => Prod.ext_iff.mpr (by simpa using equal)) same.2.2
          rw [Value.ofNatural_inj same.1, Value.ofNatural_inj same.2.1, edges]
      | _ => simp [shown] at same

end Response

namespace Service

theorem encodes_encodeResponse {response : Response} (fits : response.Fits) :
    Encodes MessagePack.nestingLimit response.shown (encodeResponse response) := by
  have encodes := MessagePack.encodes_write fits.toDocument
  rw [response.valueOf_toDocument] at encodes
  exact encodes.mono (by decide)

/-- The bytes of a reply are one whole value, and no front of them is: the map of the reply's fields in their order. The
texts in a node's record are those of its metadata and of its bitmaps, and the bitmaps come back exactly if they are
plain. So no two replies have the same bytes if their nodes are plain. -/
theorem encodeResponse_shows {response : Response} (fits : response.Fits) :
    Encodes MessagePack.nestingLimit response.shown (encodeResponse response) ∧
      (∀ rest, MessagePack.read (encodeResponse response ++ rest) = some (response.shown, rest)) ∧
      (∀ limit value front rest, Encodes limit value front → front ++ rest = encodeResponse response →
        value = response.shown ∧ rest = []) ∧
      (∀ node ∈ response.allNodes, Base64.decode (Base64.encode node.metadata) = some node.metadata ∧
        (Bitmap.ofText? node.children.toText = some node.children ↔ node.children.Plain) ∧
        (Bitmap.ofText? node.parents.toText = some node.parents ↔ node.parents.Plain) ∧
        (Node.ofValue? node.shown = some node ↔ node.Plain)) ∧
      ∀ other : Response, other.Fits → (∀ node ∈ response.allNodes, node.Plain) →
        (∀ node ∈ other.allNodes, node.Plain) → encodeResponse response = encodeResponse other → response = other := by
  have encodes := encodes_encodeResponse fits
  refine ⟨encodes, MessagePack.readNested_encodes encodes, ?_, ?_, ?_⟩
  · intro limit value front rest encodesFront whole
    rw [← List.append_nil (encodeResponse response)] at whole
    obtain ⟨equal, -, nothing⟩ := encodesFront.unique encodes whole
    exact ⟨equal, nothing⟩
  · intro node _
    rw [node.ofValue?_shown]
    exact ⟨Base64.decode_encode node.metadata, Bitmap.ofText?_toText_iff, Bitmap.ofText?_toText_iff, node.rebuilt_iff⟩
  · intro other otherFits plain otherPlain same
    have whole : encodeResponse response ++ [] = encodeResponse other ++ [] := by rw [same]
    exact Response.shown_inj plain otherPlain (encodes.unique (encodes_encodeResponse otherFits) whole).1

theorem encodeResponse_shows_leaf :
    (Response.node { id := 7, type := "library", name := "leaf" }).Fits ∧
      MessagePack.read (encodeResponse (.node { id := 7, type := "library", name := "leaf" })) =
        some ((Response.node { id := 7, type := "library", name := "leaf" }).shown, []) := by
  have fits : (Response.node { id := 7, type := "library", name := "leaf" }).Fits := by
    refine ⟨nofun, fun node member => ?_, nofun, nofun⟩
    obtain rfl := List.mem_singleton.mp member
    simp only [Node.texts, Bitmap.toText_empty]
    decide
  have read := (encodeResponse_shows fits).2.1 []
  rw [List.append_nil] at read
  exact ⟨fits, read⟩

end Service

theorem Bitmap.length_toText_le (bitmap : Bitmap) :
    (Bytes.ofString bitmap.toText).length ≤ 16 * bitmap.encode.length + 16 := by
  have chars := Bytes.length_ofString_ofList_le (Base64.encodeChars bitmap.encode)
  rw [Base64.length_encodeChars] at chars
  rw [toText, Base64.encode]
  omega

theorem fits_longRunNode : (Response.node longRunNode).Fits := by
  refine ⟨nofun, ?_, nofun, nofun⟩
  have size : longRunNode.parents.encode.length = 8220 := by
    rw [Bitmap.length_encode, longRunNode, Bitmap.longRun,
      Bitmap.containers_insert_run (by decide) (by decide) (by decide)]
    simp only [List.map_cons, List.map_nil, List.flatten_cons, List.flatten_nil, List.append_nil, List.length_append,
      Bitmap.Container.toBytes, if_true, Bitmap.length_flatMap (Bytes.length_littleEndian 2), List.length_range']
    rfl
  have parents := longRunNode.parents.length_toText_le
  rw [size] at parents
  intro node member
  obtain rfl := List.mem_singleton.mp member
  simp only [Node.texts, List.forall_mem_cons]
  refine ⟨by decide, by decide, by decide, ?_, by omega, List.forall_mem_nil _⟩
  rw [longRunNode, Bitmap.toText_empty]
  decide

/-- The node can be shown, but its parents are not read from their text. -/
theorem Service.encodeResponse_longRunNode :
    (Response.node longRunNode).Fits ∧ Bitmap.ofText? longRunNode.parents.toText = none ∧
      ¬∀ response : Response, response.Fits → ∀ node ∈ response.allNodes, Node.ofValue? node.shown = some node := by
  have unread : Bitmap.ofText? longRunNode.parents.toText = none := by rw [longRunNode, Bitmap.ofText?_longRun]
  refine ⟨fits_longRunNode, unread, fun every => ?_⟩
  have read := every _ fits_longRunNode longRunNode (List.mem_singleton_self _)
  rw [Node.ofValue?_shown, Node.rebuilt_iff] at read
  have parents := Bitmap.ofText?_toText_iff.mpr read.2
  rw [unread] at parents
  cases parents

end SupplyGraph
