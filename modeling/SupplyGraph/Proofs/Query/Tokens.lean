import SupplyGraph.Proofs.Outcome
import SupplyGraph.Query.Parser
import Mathlib.Data.List.TakeWhile

/-!
What a text splits into, stated without the scanner: white space and brackets end words, brackets are tokens, and
each word is the keyword of an operator or an identifier `[A-Za-z][A-Za-z0-9:/._@-]*`. The scanner finds this
splitting and no other, and fails where there is none.
-/

namespace SupplyGraph.Query

def Letter (c : Char) : Prop := ('a' ≤ c ∧ c ≤ 'z') ∨ ('A' ≤ c ∧ c ≤ 'Z')

instance : DecidablePred Letter := fun c => inferInstanceAs (Decidable (('a' ≤ c ∧ c ≤ 'z') ∨ ('A' ≤ c ∧ c ≤ 'Z')))

def IdentifierChar (c : Char) : Prop :=
  Letter c ∨ ('0' ≤ c ∧ c ≤ '9') ∨ c = ':' ∨ c = '/' ∨ c = '.' ∨ c = '_' ∨ c = '@' ∨ c = '-'

def Delimits (c : Char) : Prop := Text.isBlank c ∨ ∃ bracket : Bracket, c = bracket.opening ∨ c = bracket.closing

inductive Spells : List Char → Token → Prop
  | operator (op : SetOperator) : Spells op.keyword.toList (.operator op)
  | identifier {first : Char} {rest : List Char} (letter : Letter first) (others : ∀ c ∈ rest, IdentifierChar c)
      (free : ∀ op : SetOperator, op.keyword.toList ≠ first :: rest) :
      Spells (first :: rest) (.word (String.ofList (first :: rest)))

/-- The tokens that a text splits into. Words are as long as they can be. -/
inductive Splits : List Char → List Token → Prop
  | nil : Splits [] []
  | blank {c : Char} {rest : List Char} {tokens : List Token} (white : Text.isBlank c) (others : Splits rest tokens) :
      Splits (c :: rest) tokens
  | opening {rest : List Char} {tokens : List Token} (bracket : Bracket) (others : Splits rest tokens) :
      Splits (bracket.opening :: rest) (.opening bracket :: tokens)
  | closing {rest : List Char} {tokens : List Token} (bracket : Bracket) (others : Splits rest tokens) :
      Splits (bracket.closing :: rest) (.closing bracket :: tokens)
  | word {word rest : List Char} {token : Token} {tokens : List Token} (spelled : Spells word token)
      (whole : ∀ c ∈ word, ¬Delimits c) (ended : ∀ c ∈ rest.head?, Delimits c) (others : Splits rest tokens) :
      Splits (word ++ rest) (token :: tokens)

theorem Spells.ne_nil {word : List Char} {token : Token} (spelled : Spells word token) : word ≠ [] := by
  cases spelled with
  | operator op => cases op <;> decide
  | identifier => exact List.cons_ne_nil _ _

theorem Letter.code {c : Char} (letter : Letter c) :
    65 ≤ c.toNat ∧ c.toNat ≤ 90 ∨ 97 ≤ c.toNat ∧ c.toNat ≤ 122 := by
  rcases letter with ⟨low, high⟩ | ⟨low, high⟩
  · exact .inr ⟨UInt32.le_iff_toNat_le.1 low, UInt32.le_iff_toNat_le.1 high⟩
  · exact .inl ⟨UInt32.le_iff_toNat_le.1 low, UInt32.le_iff_toNat_le.1 high⟩

theorem IdentifierChar.not_delimits {c : Char} (allowed : IdentifierChar c) : ¬Delimits c := by
  have code : 45 ≤ c.toNat ∧ c.toNat ≤ 90 ∨ 95 ≤ c.toNat ∧ c.toNat ≤ 122 := by
    rcases allowed with letter | ⟨low, high⟩ | mark
    · have := letter.code
      omega
    · have low : 48 ≤ c.toNat := UInt32.le_iff_toNat_le.1 low
      have high : c.toNat ≤ 57 := UInt32.le_iff_toNat_le.1 high
      omega
    · rcases mark with rfl | rfl | rfl | rfl | rfl | rfl <;> decide
  rintro (white | ⟨bracket, rfl | rfl⟩)
  · simp only [Text.isBlank, Text.blankRanges, List.any_cons, List.any_nil, Bool.or_eq_true, Bool.and_eq_true,
      decide_eq_true_eq, Bool.or_false] at white
    omega
  · cases bracket <;> revert code <;> decide
  · cases bracket <;> revert code <;> decide

theorem SetOperator.letter_of_mem_keyword {op : SetOperator} {c : Char} (member : c ∈ op.keyword.toList) :
    Letter c := by
  have all : op.keyword.toList.all (fun c => decide (Letter c)) = true := by cases op <;> decide
  exact of_decide_eq_true (List.all_eq_true.1 all c member)

theorem Spells.whole {word : List Char} {token : Token} (spelled : Spells word token) : ∀ c ∈ word, ¬Delimits c := by
  intro c member
  apply IdentifierChar.not_delimits
  cases spelled with
  | operator op => exact .inl (SetOperator.letter_of_mem_keyword member)
  | identifier letter others free =>
      rcases List.mem_cons.1 member with rfl | later
      · exact .inl letter
      · exact others c later

theorem Spells.splits {word : List Char} {token : Token} (spelled : Spells word token) : Splits word [token] := by
  have split := @Splits.word word [] _ _ spelled spelled.whole (by simp) .nil
  rwa [List.append_nil] at split

structure Identifier (text : String) : Prop where
  shape : ∃ first rest, text.toList = first :: rest ∧ Letter first ∧ ∀ c ∈ rest, IdentifierChar c
  free : ∀ op : SetOperator, text ≠ op.keyword

theorem Identifier.spells {text : String} (identifier : Identifier text) : Spells text.toList (.word text) := by
  obtain ⟨first, rest, same, letter, others⟩ := identifier.shape
  have free (op : SetOperator) : op.keyword.toList ≠ first :: rest := by
    intro equal
    exact identifier.free op (String.toList_injective (same.trans equal.symm))
  have spelled := Spells.identifier letter others free
  rwa [← same, String.ofList_toList] at spelled

theorem Splits.identifier {chars : List Char} {tokens : List Token} (splits : Splits chars tokens) {text : String}
    (listed : .word text ∈ tokens) : Identifier text := by
  induction splits with
  | nil => cases listed
  | blank white others ih => exact ih listed
  | opening bracket others ih => exact ih ((List.mem_cons.1 listed).resolve_left nofun)
  | closing bracket others ih => exact ih ((List.mem_cons.1 listed).resolve_left nofun)
  | word spelled whole ended others ih =>
      rcases List.mem_cons.1 listed with rfl | later
      · cases spelled with
        | identifier letter others free =>
            refine ⟨⟨_, _, String.toList_ofList, letter, others⟩, fun op same => free op ?_⟩
            rw [← same, String.toList_ofList]
      · exact ih later

def Apart (front back : List Char) : Prop := ∀ c ∈ front.getLast?, ∀ d ∈ back.head?, Delimits c ∨ Delimits d

theorem Apart.of_head {front back : List Char} (starts : ∀ d ∈ back.head?, Delimits d) : Apart front back :=
  fun _ _ d isHead => .inr (starts d isHead)

theorem Apart.of_append {first second back : List Char} (apart : Apart (first ++ second) back) :
    Apart second back := by
  intro c isLast
  apply apart c
  rw [List.getLast?_append, Option.mem_def.1 isLast]
  rfl

theorem Apart.of_cons {c : Char} {front back : List Char} (apart : Apart (c :: front) back) : Apart front back :=
  @Apart.of_append [c] front back apart

theorem Splits.append {front back : List Char} {before after : List Token} (first : Splits front before)
    (second : Splits back after) (apart : Apart front back) : Splits (front ++ back) (before ++ after) := by
  induction first with
  | nil => exact second
  | blank white others ih => exact .blank white (ih apart.of_cons)
  | opening bracket others ih => exact .opening bracket (ih apart.of_cons)
  | closing bracket others ih => exact .closing bracket (ih apart.of_cons)
  | @word word rest _ _ spelled whole ended others ih =>
      rw [List.append_assoc]
      refine .word spelled whole (fun d isHead => ?_) (ih apart.of_append)
      cases rest with
      | cons c rest => exact ended d isHead
      | nil =>
          have isLast := List.getLast?_eq_some_getLast spelled.ne_nil
          rw [List.append_nil] at apart
          exact (apart _ isLast d isHead).resolve_left (whole _ (List.getLast_mem _))

namespace Token

theorem isLetter_iff {c : Char} : isLetter c ↔ Letter c := by simp [isLetter, Letter]

theorem isIdentifierChar_iff {c : Char} : isIdentifierChar c ↔ IdentifierChar c := by
  simp [isIdentifierChar, IdentifierChar, isLetter_iff, or_assoc]

theorem isIdentifier_cons {first : Char} {rest : List Char} :
    isIdentifier (first :: rest) ↔ Letter first ∧ ∀ c ∈ rest, IdentifierChar c := by
  simp [isIdentifier, isLetter_iff, isIdentifierChar_iff]

theorem ofBracket?_eq_some {c : Char} {token : Token} :
    ofBracket? c = some token ↔
      ∃ bracket : Bracket, (c = bracket.opening ∧ token = .opening bracket) ∨
        (c = bracket.closing ∧ token = .closing bracket) := by
  constructor
  · intro found
    unfold ofBracket? at found
    split at found <;> cases found
    · exact ⟨.round, .inl ⟨rfl, rfl⟩⟩
    · exact ⟨.round, .inr ⟨rfl, rfl⟩⟩
    · exact ⟨.square, .inl ⟨rfl, rfl⟩⟩
    · exact ⟨.square, .inr ⟨rfl, rfl⟩⟩
  · rintro ⟨bracket, ⟨rfl, rfl⟩ | ⟨rfl, rfl⟩⟩ <;> cases bracket <;> rfl

@[simp]
theorem ofBracket?_opening (bracket : Bracket) : ofBracket? bracket.opening = some (.opening bracket) := by
  cases bracket <;> rfl

@[simp]
theorem ofBracket?_closing (bracket : Bracket) : ofBracket? bracket.closing = some (.closing bracket) := by
  cases bracket <;> rfl

@[simp]
theorem isBlank_opening (bracket : Bracket) : Text.isBlank bracket.opening = false := by
  cases bracket <;> decide

@[simp]
theorem isBlank_closing (bracket : Bracket) : Text.isBlank bracket.closing = false := by
  cases bracket <;> decide

theorem isDelimiter_iff {c : Char} : isDelimiter c ↔ Delimits c := by
  simp only [isDelimiter, Delimits, Bool.or_eq_true, Option.isSome_iff_exists, ofBracket?_eq_some]
  refine or_congr_right ⟨?_, ?_⟩
  · rintro ⟨token, bracket, ⟨is, -⟩ | ⟨is, -⟩⟩
    · exact ⟨bracket, .inl is⟩
    · exact ⟨bracket, .inr is⟩
  · rintro ⟨bracket, is | is⟩
    · exact ⟨_, bracket, .inl ⟨is, rfl⟩⟩
    · exact ⟨_, bracket, .inr ⟨is, rfl⟩⟩

theorem splits_bracket {c : Char} {rest : List Char} {token : Token} {tokens : List Token}
    (found : ofBracket? c = some token) (others : Splits rest tokens) : Splits (c :: rest) (token :: tokens) := by
  obtain ⟨bracket, ⟨rfl, rfl⟩ | ⟨rfl, rfl⟩⟩ := ofBracket?_eq_some.1 found
  · exact .opening bracket others
  · exact .closing bracket others

theorem keyword_of_ofKeyword? {text : String} {op : SetOperator} (found : SetOperator.ofKeyword? text = some op) :
    text = op.keyword := by
  unfold SetOperator.ofKeyword? at found
  split at found <;> cases found <;> rfl

theorem ofKeyword?_eq_none {word : List Char} (free : ∀ op : SetOperator, op.keyword.toList ≠ word) :
    SetOperator.ofKeyword? (String.ofList word) = none := by
  cases known : SetOperator.ofKeyword? (String.ofList word) with
  | none => rfl
  | some op => exact absurd (by rw [← keyword_of_ofKeyword? known, String.toList_ofList]) (free op)

theorem ofWord_keyword (op : SetOperator) : ofWord op.keyword.toList = .ok (.operator op) := by
  cases op <;> rfl

theorem ofWord_free {word : List Char} (free : ∀ op : SetOperator, op.keyword.toList ≠ word) :
    ofWord word = if isIdentifier word then .ok (.word (String.ofList word))
      else .error (.invalidIdentifier (String.ofList word)) := by
  simp only [ofWord, ofKeyword?_eq_none free]

theorem ofWord_exact {word : List Char} {token : Token} : ofWord word = .ok token ↔ Spells word token := by
  constructor
  · intro found
    by_cases keyword : ∃ op : SetOperator, op.keyword.toList = word
    · obtain ⟨op, rfl⟩ := keyword
      rw [ofWord_keyword, Except.ok.injEq] at found
      exact found ▸ .operator op
    · have free (op : SetOperator) : op.keyword.toList ≠ word := fun same => keyword ⟨op, same⟩
      rw [ofWord_free free] at found
      split at found
      next identifier =>
        cases found
        cases word with
        | nil => cases identifier
        | cons first rest =>
            obtain ⟨letter, others⟩ := isIdentifier_cons.1 identifier
            exact .identifier letter others free
      next => cases found
  · intro spelled
    cases spelled with
    | operator op => exact ofWord_keyword op
    | identifier letter others free => rw [ofWord_free free, if_pos (isIdentifier_cons.2 ⟨letter, others⟩)]

theorem scan_bracket {offset : Nat} {c : Char} {rest : List Char} {token : Token} {located : List (Located Token)}
    (visible : Text.isBlank c = false) (found : ofBracket? c = some token)
    (scanned : scan (offset + c.utf8Size) rest = .ok located) :
    scan offset (c :: rest) = .ok (⟨token, offset⟩ :: located) := by
  rw [scan, visible, if_neg Bool.false_ne_true, found]
  exact bind_eq_ok.2 ⟨located, scanned, rfl⟩

section Words

variable {word rest : List Char} (whole : ∀ c ∈ word, ¬Delimits c) (ended : ∀ c ∈ rest.head?, Delimits c)
include whole ended

theorem takeWhile_word : (word ++ rest).takeWhile (fun c => !isDelimiter c) = word := by
  rw [List.takeWhile_append_of_pos fun c member => by simpa [← isDelimiter_iff] using whole c member]
  cases rest with
  | nil => rw [List.takeWhile_nil, List.append_nil]
  | cons c rest => simp [isDelimiter_iff.2 (ended c rfl)]

theorem dropWhile_word : (word ++ rest).dropWhile (fun c => !isDelimiter c) = rest := by
  rw [List.dropWhile_append_of_pos fun c member => by simpa [← isDelimiter_iff] using whole c member]
  cases rest with
  | nil => rfl
  | cons c rest => simp [isDelimiter_iff.2 (ended c rfl)]

end Words

theorem scan_word {offset : Nat} {c : Char} {word rest : List Char} {token : Token} {located : List (Located Token)}
    (spelled : Spells (c :: word) token) (whole : ∀ other ∈ c :: word, ¬Delimits other)
    (ended : ∀ other ∈ rest.head?, Delimits other)
    (scanned : scan (offset + width (c :: word)) rest = .ok located) :
    scan offset (c :: word ++ rest) = .ok (⟨token, offset⟩ :: located) := by
  have first : isDelimiter c = false := by
    simpa [← isDelimiter_iff] using whole c List.mem_cons_self
  simp only [isDelimiter, Bool.or_eq_false_iff, Option.isSome_eq_false_iff, Option.isNone_iff_eq_none] at first
  have inside : ∀ other ∈ word, ¬Delimits other := fun other member => whole other (List.mem_cons_of_mem c member)
  rw [List.cons_append, scan, first.1, if_neg Bool.false_ne_true, first.2]
  simp only [takeWhile_word inside ended, dropWhile_word inside ended]
  exact bind_eq_ok.2 ⟨token, mapError_eq_ok.2 (ofWord_exact.2 spelled), bind_eq_ok.2 ⟨located, scanned, rfl⟩⟩

theorem whole_firstWord {c : Char} {rest : List Char} (visible : ¬Text.isBlank c) (noBracket : ofBracket? c = none) :
    ∀ other ∈ c :: rest.takeWhile (fun c => !isDelimiter c), ¬Delimits other := by
  intro other member
  rw [← isDelimiter_iff]
  rcases List.mem_cons.1 member with rfl | member
  · simp [isDelimiter, visible, noBracket]
  · simpa using List.mem_takeWhile_imp member

theorem ended_firstWord {rest : List Char} :
    ∀ other ∈ (rest.dropWhile fun c => !isDelimiter c).head?, Delimits other := by
  intro other isFirst
  have stops := List.head?_dropWhile_not (fun c => !isDelimiter c) rest
  rw [← isDelimiter_iff]
  rw [Option.mem_def.1 isFirst] at stops
  simpa using stops

theorem cons_eq_firstWord (c : Char) (rest : List Char) :
    c :: rest = (c :: rest.takeWhile fun c => !isDelimiter c) ++ rest.dropWhile fun c => !isDelimiter c := by
  rw [List.cons_append, List.takeWhile_append_dropWhile]

theorem scan_sound {offset : Nat} {chars : List Char} {located : List (Located Token)}
    (scanned : scan offset chars = .ok located) : Splits chars (located.map (·.item)) := by
  fun_induction scan offset chars generalizing located with
  | case1 => cases scanned; exact .nil
  | case2 offset c rest white ih => exact .blank white (ih scanned)
  | case3 offset c rest _ token found ih =>
      obtain ⟨others, run, same⟩ := bind_eq_ok.1 scanned
      cases same
      exact splits_bracket found (ih run)
  | case4 offset c rest visible noBracket word =>
      rename_i ih
      obtain ⟨token, made, scanned⟩ := bind_eq_ok.1 scanned
      obtain ⟨others, run, same⟩ := bind_eq_ok.1 scanned
      cases same
      rw [cons_eq_firstWord, List.map_cons]
      have spelled := ofWord_exact.1 (mapError_eq_ok.1 made)
      exact .word spelled (whole_firstWord visible noBracket) ended_firstWord (ih run)

theorem scan_complete {chars : List Char} {tokens : List Token} (splits : Splits chars tokens) (offset : Nat) :
    ∃ located, scan offset chars = .ok located ∧ located.map (·.item) = tokens := by
  induction splits generalizing offset with
  | nil => exact ⟨[], by rw [scan], rfl⟩
  | blank white others ih =>
      obtain ⟨located, scanned, items⟩ := ih _
      exact ⟨located, by rw [scan, if_pos white, scanned], items⟩
  | opening bracket others ih =>
      obtain ⟨located, scanned, items⟩ := ih (offset + bracket.opening.utf8Size)
      have scanned := scan_bracket (isBlank_opening bracket) (ofBracket?_opening bracket) scanned
      exact ⟨_, scanned, by rw [List.map_cons, items]⟩
  | closing bracket others ih =>
      obtain ⟨located, scanned, items⟩ := ih (offset + bracket.closing.utf8Size)
      have scanned := scan_bracket (isBlank_closing bracket) (ofBracket?_closing bracket) scanned
      exact ⟨_, scanned, by rw [List.map_cons, items]⟩
  | @word word _ _ _ spelled whole ended others ih =>
      cases word with
      | nil => exact absurd rfl spelled.ne_nil
      | cons c word =>
          obtain ⟨located, scanned, items⟩ := ih _
          exact ⟨_, scan_word spelled whole ended scanned, by rw [List.map_cons, items]⟩

theorem ofText_exact {text : String} {tokens : List Token} :
    (∃ located, ofText text = .ok located ∧ located.map (·.item) = tokens) ↔ Splits text.toList tokens := by
  constructor
  · rintro ⟨located, scanned, rfl⟩
    exact scan_sound scanned
  · exact fun splits => scan_complete splits 0

end Token

end SupplyGraph.Query
