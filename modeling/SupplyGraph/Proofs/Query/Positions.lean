import SupplyGraph.Proofs.Query.Offsets
import SupplyGraph.Proofs.Query.Printing

/-!
Where a rejected script is blamed. A word that is no token is found before anything else; then the reader stops at the
first token after which no script can go on, and where there is no such token the end of the text is to blame.
-/

namespace SupplyGraph.Query

def Sentence (tokens : List Token) : Prop :=
  (∃ derivation : Derivation .expression, derivation.tokens = tokens) ∧
    ∀ text, Token.word text ∈ tokens → Identifier text

/-- Further tokens make a sentence of them. -/
def Viable (tokens : List Token) : Prop := ∃ more, Sentence (tokens ++ more)

variable {category : Category} {stop position : Nat} {located : List (Located Token)}

def Category.Completes (category : Category) (tokens : List Token) : Prop :=
  ∃ (derivation : Derivation category) (more : List Token), derivation.tokens = tokens ++ more ∧
    ∀ text, Token.word text ∈ more → Identifier text

def Category.Starts (category : Category) (tokens : List Token) : Prop :=
  ∃ (derivation : Derivation category) (more : List Token), tokens = derivation.tokens ++ more ∧
    derivation.Ends more.head?

inductive Category.Stops (category : Category) (stop : Nat) (located : List (Located Token)) (position : Nat) : Prop
  | atEnd (place : position = stop) (completes : category.Completes (located.map (·.item)))
  | atToken (before after : List (Located Token)) (token : Located Token) (split : located = before ++ token :: after)
      (place : position = token.offset) (completes : category.Completes (before.map (·.item)))
      (hopeless : ∀ more, ¬category.Starts (before.map (·.item) ++ token.item :: more))

theorem identifier_library : Identifier "library" where
  shape := ⟨'l', _, rfl, Token.isIdentifier_cons.1 (by decide)⟩
  free op := by cases op <;> decide

namespace Category

theorem Completes.of_tokens (derivation : Derivation category) : category.Completes derivation.tokens :=
  ⟨derivation, [], (List.append_nil _).symm, nofun⟩

theorem Completes.relation (relation : Relation) : Category.term.Completes [.word relation.keyword] := by
  refine ⟨.leaf ⟨relation, "library", none⟩, [.word "library"], rfl, fun text listed => ?_⟩
  obtain rfl := Token.word.inj (List.mem_singleton.1 listed)
  exact identifier_library

theorem Completes.nil : Category.term.Completes [] := by
  obtain ⟨derivation, more, same, identifiers⟩ := Completes.relation .dependencies
  refine ⟨derivation, _, same, fun text listed => ?_⟩
  rcases List.mem_cons.1 listed with first | later
  · obtain rfl := Token.word.inj first
    exact Relation.dependencies.identifier_keyword
  · exact identifiers text later

theorem Completes.group {tokens : List Token} (bracket : Bracket) (inner : Category.expression.Completes tokens) :
    Category.term.Completes (.opening bracket :: tokens) := by
  obtain ⟨derivation, more, same, identifiers⟩ := inner
  refine ⟨.group bracket derivation, more ++ [.closing bracket], ?_, fun text listed => identifiers text ?_⟩
  · simp [Derivation.tokens, same]
  · simpa using listed

theorem Completes.single {tokens : List Token} (term : Category.term.Completes tokens) :
    Category.expression.Completes tokens := by
  obtain ⟨derivation, more, same, identifiers⟩ := term
  exact ⟨.single derivation, more, same, identifiers⟩

theorem Completes.operation {tokens : List Token} (op : SetOperator) (left : Derivation .term)
    (right : Category.expression.Completes tokens) :
    Category.expression.Completes (left.tokens ++ .operator op :: tokens) := by
  obtain ⟨derivation, more, same, identifiers⟩ := right
  refine ⟨.operation op left derivation, more, ?_, identifiers⟩
  simp [Derivation.tokens, same]

theorem starts_term_cons {first : Token} {rest : List Token} (starts : Category.term.Starts (first :: rest)) :
    (∃ (relation : Relation) (nodeType : String) (others : List Token), first = .word relation.keyword ∧
      rest = .word nodeType :: others) ∨
    ∃ (bracket : Bracket) (inner : Derivation .expression) (more : List Token), first = .opening bracket ∧
      rest = inner.tokens ++ .closing bracket :: more := by
  obtain ⟨derivation, more, same, -⟩ := starts
  cases derivation with
  | leaf leaf =>
      obtain ⟨rfl, rfl⟩ := List.cons.inj same
      exact .inl ⟨leaf.relation, leaf.nodeType, _, rfl, rfl⟩
  | group bracket inner =>
      obtain ⟨rfl, rfl⟩ := List.cons.inj same
      exact .inr ⟨bracket, inner, more, rfl, List.append_assoc ..⟩

theorem starts_expression {tokens : List Token} (starts : Category.expression.Starts tokens) :
    ∃ (term : Derivation .term) (more : List Token), tokens = term.tokens ++ more ∧ term.Ends more.head? ∧
      ∀ op others, more = .operator op :: others → Category.expression.Starts others := by
  obtain ⟨derivation, more, rfl, ends⟩ := starts
  cases derivation with
  | single term =>
      refine ⟨term, more, rfl, ends.1, ?_⟩
      rintro op others rfl
      exact absurd rfl (ends.2 op)
  | operation op left right =>
      refine ⟨left, .operator op :: (right.tokens ++ more), List.append_assoc .., left.ends_of_not_word nofun, ?_⟩
      rintro other others same
      obtain ⟨-, rfl⟩ := List.cons.inj same
      exact ⟨right, more, rfl, ends⟩

theorem Stops.group {bracket : Bracket} {offset : Nat} {inside : List (Located Token)}
    (inner : Category.expression.Stops stop inside position) :
    Category.term.Stops stop (⟨.opening bracket, offset⟩ :: inside) position := by
  cases inner with
  | atEnd place completes => exact .atEnd place (completes.group bracket)
  | atToken before after token split place completes hopeless =>
      refine .atToken (⟨.opening bracket, offset⟩ :: before) after token (congrArg _ split) place
        (completes.group bracket) fun more starts => ?_
      rcases starts_term_cons starts with ⟨_, _, _, none, -⟩ | ⟨other, inner, behind, -, same⟩
      · cases none
      · exact hopeless more ⟨inner, _, same, inner.ends_closing other⟩

theorem Stops.closing {bracket : Bracket} {offset : Nat} {front behind : List (Located Token)} {token : Located Token}
    {inner : Derivation .expression} (items : front.map (·.item) = inner.tokens) (ends : inner.Ends (some token.item))
    (unequal : token.item ≠ .closing bracket) :
    Category.term.Stops stop (⟨.opening bracket, offset⟩ :: (front ++ token :: behind)) token.offset := by
  have completes := (Completes.of_tokens inner).group bracket
  refine .atToken (⟨.opening bracket, offset⟩ :: front) behind token rfl rfl (by simpa [items] using completes)
    fun more starts => ?_
  rcases starts_term_cons starts with ⟨_, _, _, none, -⟩ | ⟨other, content, others, same, parts⟩
  · cases none
  · cases same
    change front.map (·.item) ++ token.item :: more = _ at parts
    rw [items] at parts
    obtain ⟨-, rest⟩ := Derivation.eq_of_append parts ends (content.ends_closing bracket)
    exact unequal (List.cons.inj rest).1

theorem Stops.single (term : Category.term.Stops stop located position) :
    Category.expression.Stops stop located position := by
  cases term with
  | atEnd place completes => exact .atEnd place completes.single
  | atToken before after token split place completes hopeless =>
      refine .atToken before after token split place completes.single fun more starts => ?_
      obtain ⟨term, behind, same, ends, -⟩ := starts_expression starts
      exact hopeless more ⟨term, behind, same, ends⟩

theorem Stops.operation {op : SetOperator} {offset : Nat} {front behind : List (Located Token)}
    {left : Derivation .term} (items : front.map (·.item) = left.tokens)
    (right : Category.expression.Stops stop behind position) :
    Category.expression.Stops stop (front ++ ⟨.operator op, offset⟩ :: behind) position := by
  cases right with
  | atEnd place completes =>
      refine .atEnd place ?_
      simpa [items] using completes.operation op left
  | atToken before after token split place completes hopeless =>
      refine .atToken (front ++ ⟨.operator op, offset⟩ :: before) after token (by simp [split]) place
        (by simpa [items] using completes.operation op left) fun more starts => ?_
      obtain ⟨term, behind, same, ends, right⟩ := starts_expression starts
      have parts : left.tokens ++ .operator op :: (before.map (·.item) ++ token.item :: more) =
          term.tokens ++ behind := by simpa [items] using same
      obtain ⟨-, rfl⟩ := Derivation.eq_of_append parts (left.ends_of_not_word nofun) ends
      exact hopeless more (right op _ rfl)

end Category

theorem readWord_eq_error {expected : Option Token → SyntaxFault} {error : SyntaxError}
    (failed : readWord expected stop located = .error error) :
    (located = [] ∧ error.position = stop) ∨
      ∃ token rest, located = token :: rest ∧ (∀ text, token.item ≠ .word text) ∧ error.position = token.offset := by
  unfold readWord at failed
  split at failed
  next => cases failed
  next noWord =>
    cases failed
    cases located with
    | nil => exact .inl ⟨rfl, rfl⟩
    | cons token rest =>
        refine .inr ⟨token, rest, rfl, fun text isWord => noWord text token.offset rest ?_, rfl⟩
        rw [← isWord]

open Category in
theorem readLeaf_stops {error : SyntaxError}
    (noOpening : ∀ bracket offset inside, located ≠ ⟨.opening bracket, offset⟩ :: inside)
    (failed : readLeaf stop located = .error error) : Category.term.Stops stop located error.position := by
  rcases bind_eq_error.1 failed with failed | ⟨⟨keyword, rest, shorter⟩, readKeyword, failed⟩
  · rcases readWord_eq_error failed with ⟨rfl, last⟩ | ⟨token, rest, rfl, noWord, place⟩
    · exact .atEnd last .nil
    · refine .atToken [] rest token rfl place .nil fun more starts => ?_
      rcases starts_term_cons starts with ⟨relation, _, _, isWord, -⟩ | ⟨bracket, _, _, isOpening, -⟩
      · exact noWord _ isWord
      · exact noOpening bracket token.offset rest (by rw [← isOpening])
  · obtain ⟨offset, rfl⟩ := readWord_eq_ok.1 readKeyword
    dsimp only at failed
    split at failed
    next unknown =>
      cases failed
      refine .atToken [] rest _ rfl rfl .nil fun more starts => ?_
      rcases starts_term_cons starts with ⟨relation, _, _, isWord, -⟩ | ⟨_, _, _, isOpening, -⟩
      · obtain rfl := Token.word.inj isWord
        rw [ofKeyword?_keyword] at unknown
        cases unknown
      · cases isOpening
    next relation known =>
      obtain rfl := keyword_of_ofKeyword? known
      rcases bind_eq_error.1 failed with failed | ⟨⟨nodeType, behind, evenShorter⟩, readType, failed⟩
      · rcases readWord_eq_error failed with ⟨rfl, last⟩ | ⟨token, rest, rfl, noWord, place⟩
        · exact .atEnd last (.relation relation)
        · refine .atToken [_] rest token rfl place (.relation relation) fun more starts => ?_
          rcases starts_term_cons starts with ⟨_, nodeType, _, -, same⟩ | ⟨_, _, _, isOpening, -⟩
          · exact noWord nodeType (List.cons.inj same).1
          · cases isOpening
      · dsimp only at failed
        split at failed <;> cases failed

open Category in
theorem read_stops (stop : Nat) :
    (∀ located error, readTerm stop located = .error error → Category.term.Stops stop located error.position) ∧
    ∀ located error, readExpression stop located = .error error →
      Category.expression.Stops stop located error.position := by
  apply readTerm.mutual_induct
  case case1 =>
    intro bracket offset inside ih error failed
    rw [readTerm] at failed
    rcases bind_eq_error.1 failed with failed | ⟨⟨inner, rest, shorter⟩, readInner, failed⟩
    · exact (ih _ failed).group
    · obtain ⟨front, derivation, split, items, -, ends⟩ := (read_sound stop).2 _ _ readInner
      dsimp only at failed split ends
      subst split
      split at failed
      next =>
        cases failed
        refine .atEnd rfl ?_
        simpa [items] using (Completes.of_tokens derivation).group bracket
      next token behind _ =>
        split at failed
        next => cases failed
        next unequal =>
          cases failed
          exact .closing items ends unequal
  case case2 =>
    intro located noOpening error failed
    rw [readTerm.eq_2 _ _ noOpening] at failed
    rcases bind_eq_error.1 failed with failed | ⟨part, readLeaf, failed⟩
    · exact readLeaf_stops noOpening failed
    · cases failed
  case case3 =>
    intro located ihLeft ihRight error failed
    rw [readExpression] at failed
    rcases bind_eq_error.1 failed with failed | ⟨⟨left, rest, shorter⟩, readLeft, failed⟩
    · exact (ihLeft _ failed).single
    · dsimp only at failed
      split at failed
      next op offset behind shorter =>
        rcases bind_eq_error.1 failed with failed | ⟨part, readRight, failed⟩
        · obtain ⟨front, term, split, items, -⟩ := (read_sound stop).1 _ _ readLeft
          rw [split]
          exact (ihRight op offset behind shorter _ failed).operation items
        · cases failed
      next => cases failed

theorem viable_of_completes {tokens : List Token} (identifiers : ∀ text, Token.word text ∈ tokens → Identifier text)
    (completes : Category.expression.Completes tokens) : Viable tokens := by
  obtain ⟨derivation, more, same, others⟩ := completes
  refine ⟨more, ⟨derivation, same⟩, fun text listed => ?_⟩
  exact (List.mem_append.1 listed).elim (identifiers text) (others text)

theorem not_viable_of_hopeless {tokens : List Token} {token : Token}
    (hopeless : ∀ more, ¬Category.expression.Starts (tokens ++ token :: more)) : ¬Viable (tokens ++ [token]) := by
  rintro ⟨more, ⟨derivation, same⟩, -⟩
  refine hopeless more ⟨derivation, [], ?_, derivation.ends_none⟩
  rw [same, List.append_nil, List.append_assoc, List.singleton_append]

theorem Derivation.not_viable_behind {derivation : Derivation .expression} {token : Token}
    (ends : derivation.Ends (some token)) : ¬Viable (derivation.tokens ++ [token]) := by
  rintro ⟨more, ⟨whole, same⟩, -⟩
  have parts : derivation.tokens ++ token :: more = whole.tokens ++ [] := by simp [same]
  cases (Derivation.eq_of_append parts ends whole.ends_none).2

/-- Where the error of a rejected text belongs: on its first faulty word; else, where there is no token at all, on its
start; else, where the tokens could go on, on its end; else on the first token after which they cannot. -/
structure Blames (text : String) (offset : Nat) : Prop where
  boundary : String.Pos.Raw.IsValid text ⟨offset⟩
  word : (∃ other, FaultyWord text other) → IsLeast {other | FaultyWord text other} offset
  split : (¬∃ other, FaultyWord text other) → ∃ tokens, Splits text.toList tokens
  empty : Splits text.toList [] → offset = 0
  unfinished : ∀ tokens, tokens ≠ [] → Splits text.toList tokens → Viable tokens → offset = text.utf8ByteSize
  hopeless : ∀ tokens, Splits text.toList tokens → ¬Viable tokens →
    ∃ before token after, tokens = before ++ token :: after ∧ Viable before ∧ ¬Viable (before ++ [token]) ∧
      TokenAt text before token after offset

theorem isValid_utf8ByteSize (front back : String) : String.Pos.Raw.IsValid (front ++ back) ⟨front.utf8ByteSize⟩ :=
  String.Pos.Raw.isValid_iff_exists_append.2 ⟨front, back, rfl, rfl⟩

theorem FaultyWord.isValid {text : String} {offset : Nat} (faulty : FaultyWord text offset) :
    String.Pos.Raw.IsValid text ⟨offset⟩ := by
  obtain ⟨front, word, back, rfl, rfl, -⟩ := faulty
  rw [String.append_assoc]
  exact isValid_utf8ByteSize front _

theorem TokenAt.isValid {text : String} {before after : List Token} {token : Token} {offset : Nat}
    (stands : TokenAt text before token after offset) : String.Pos.Raw.IsValid text ⟨offset⟩ := by
  obtain ⟨front, back, rfl, rfl, -⟩ := stands
  rw [String.append_assoc]
  exact isValid_utf8ByteSize front _

theorem viable_nil : Viable [] := viable_of_completes nofun Category.Completes.nil.single

theorem Viable.of_append {tokens more : List Token} (viable : Viable (tokens ++ more)) : Viable tokens := by
  obtain ⟨rest, sentence⟩ := viable
  exact ⟨more ++ rest, by rwa [← List.append_assoc]⟩

theorem Splits.unique {chars : List Char} {tokens others : List Token} (first : Splits chars tokens)
    (second : Splits chars others) : tokens = others := by
  obtain ⟨located, scanned, rfl⟩ := Token.scan_complete first 0
  obtain ⟨again, scannedAgain, rfl⟩ := Token.scan_complete second 0
  rw [scanned] at scannedAgain
  rw [Except.ok.inj scannedAgain]

theorem Splits.not_faultyWord {text : String} {tokens : List Token} (splits : Splits text.toList tokens) :
    ¬∃ offset, FaultyWord text offset := by
  rintro ⟨offset, front, word, back, rfl, -, stands, faulty⟩
  obtain ⟨token, spelled⟩ := splits.spelled_of_stands stands (by simp)
  exact faulty token spelled

namespace Blames

variable {text : String} {offset : Nat}

theorem of_faulty (least : IsLeast {other | FaultyWord text other} offset) : Blames text offset where
  boundary := FaultyWord.isValid least.1
  word _ := least
  split noFault := absurd ⟨offset, least.1⟩ noFault
  empty splits := absurd ⟨offset, least.1⟩ splits.not_faultyWord
  unfinished _ _ splits _ := absurd ⟨offset, least.1⟩ splits.not_faultyWord
  hopeless _ splits _ := absurd ⟨offset, least.1⟩ splits.not_faultyWord

theorem of_empty (splits : Splits text.toList []) : Blames text 0 where
  boundary := by simp
  word fault := absurd fault splits.not_faultyWord
  split _ := ⟨[], splits⟩
  empty _ := rfl
  unfinished tokens some others _ := absurd (others.unique splits) some
  hopeless tokens others hopeless := by
    cases others.unique splits
    exact absurd viable_nil hopeless

theorem of_viable {tokens : List Token} (splits : Splits text.toList tokens) (some : tokens ≠ [])
    (viable : Viable tokens) : Blames text text.utf8ByteSize where
  boundary := by simpa using isValid_utf8ByteSize text ""
  word fault := absurd fault splits.not_faultyWord
  split _ := ⟨tokens, splits⟩
  empty none := absurd (splits.unique none) some
  unfinished _ _ _ _ := rfl
  hopeless others again hopeless := absurd (splits.unique again ▸ viable) hopeless

theorem of_stop {before after : List Token} {token : Token} (stands : TokenAt text before token after offset)
    (splits : Splits text.toList (before ++ token :: after)) (viable : Viable before)
    (stops : ¬Viable (before ++ [token])) : Blames text offset where
  boundary := stands.isValid
  word fault := absurd fault splits.not_faultyWord
  split _ := ⟨_, splits⟩
  empty none := absurd (splits.unique none) (by simp)
  unfinished others _ again viable := by
    rw [← splits.unique again, List.append_cons] at viable
    exact absurd viable.of_append stops
  hopeless others again _ := ⟨before, token, after, again.unique splits, viable, stops, stands⟩

end Blames

/-- The error of every rejected script stands at the byte where it belongs. -/
theorem parseScript_blames {text : String} {error : SyntaxError} (rejected : parseScript text = .error error) :
    Blames text error.position := by
  unfold parseScript at rejected
  rcases bind_eq_error.1 rejected with unscanned | ⟨located, scanned, rejected⟩
  · exact .of_faulty (Token.ofText_error unscanned)
  have splits := Token.scan_sound scanned
  split at rejected
  next none =>
    cases rejected
    rw [List.isEmpty_iff.1 none] at splits
    exact .of_empty splits
  next some =>
    have identifiers {before after : List Token} (same : located.map (·.item) = before ++ after) (text : String)
        (listed : .word text ∈ before) : Identifier text :=
      splits.identifier (same ▸ List.mem_append_left after listed)
    rcases bind_eq_error.1 rejected with rejected | ⟨⟨value, rest, shorter⟩, read, rejected⟩
    · cases (read_stops _).2 _ _ rejected with
      | atEnd place completes =>
          rw [place]
          exact .of_viable splits (by simpa using some) (viable_of_completes (fun _ => splits.identifier) completes)
      | atToken before after token split place completes hopeless =>
          rw [place]
          subst split
          have viable := viable_of_completes (identifiers List.map_append) completes
          rw [List.map_append] at splits
          exact .of_stop (Token.ofText_located scanned) splits viable (not_viable_of_hopeless hopeless)
    · obtain ⟨front, derivation, split, items, -, ends⟩ := (read_sound _).2 _ _ read
      cases rest with
      | nil => cases rejected
      | cons token after =>
          cases rejected
          dsimp only at split ends
          subst split
          have viable := viable_of_completes (identifiers List.map_append) (items ▸ .of_tokens derivation)
          rw [List.map_append] at splits
          exact .of_stop (Token.ofText_located scanned) splits viable (items ▸ Derivation.not_viable_behind ends)

theorem blames_bracket :
    parseScript "dependencies\u3000lib ] x" = .error ⟨.unexpected (.closing .square), 19⟩ ∧
      Blames "dependencies\u3000lib ] x" 19 := by
  have rejected : parseScript "dependencies\u3000lib ] x" = .error ⟨.unexpected (.closing .square), 19⟩ := by
    decide +kernel
  exact ⟨rejected, parseScript_blames rejected⟩

end SupplyGraph.Query
