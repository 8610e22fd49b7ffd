import SupplyGraph.Proofs.Query.Tokens
import Mathlib.Data.String.Basic
import Mathlib.Order.Bounds.Basic

/-!
Where words and tokens stand in a text, counted in the bytes in front of them. The scanner gives every token the
offset of its first character, and where it fails it blames the first word that spells no token.
-/

namespace SupplyGraph.Query

structure Stands (front word back : List Char) : Prop where
  nonempty : word ≠ []
  whole : ∀ c ∈ word, ¬Delimits c
  started : ∀ c ∈ front.getLast?, Delimits c
  ended : ∀ c ∈ back.head?, Delimits c

/-- A word that is neither the keyword of an operator nor an identifier starts at this byte. -/
def FaultyWord (text : String) (offset : Nat) : Prop :=
  ∃ front word back : String, text = front ++ word ++ back ∧ offset = front.utf8ByteSize ∧
    Stands front.toList word.toList back.toList ∧ ∀ token, ¬Spells word.toList token

/-- The text splits into `before`, then `token`, which starts at this byte, then `after`. -/
def TokenAt (text : String) (before : List Token) (token : Token) (after : List Token) (offset : Nat) : Prop :=
  ∃ front back : String, text = front ++ token.text ++ back ∧ offset = front.utf8ByteSize ∧
    Splits front.toList before ∧ Splits back.toList after ∧
    Apart front.toList token.text.toList ∧ Apart token.text.toList back.toList

theorem Stands.eq_of_append_eq {word back other rest : List Char} (first : Stands [] word back)
    (second : Stands [] other rest) (same : word ++ back = other ++ rest) : word = other := by
  rw [← Token.takeWhile_word first.whole first.ended, same, Token.takeWhile_word second.whole second.ended]

theorem Stands.of_append {first front word back : List Char} (stands : Stands (first ++ front) word back) :
    Stands front word back where
  nonempty := stands.nonempty
  whole := stands.whole
  started c isLast := by
    apply stands.started c
    rw [List.getLast?_append, Option.mem_def.1 isLast]
    rfl
  ended := stands.ended

theorem Stands.of_delimiter {c : Char} {rest front word back : List Char} (stands : Stands front word back)
    (delimits : Delimits c) (same : c :: rest = front ++ (word ++ back)) :
    ∃ front, rest = front ++ (word ++ back) ∧ Stands front word back := by
  rcases List.cons_eq_append_iff.1 same with ⟨rfl, begins⟩ | ⟨front, rfl, others⟩
  · obtain ⟨inside, rfl⟩ : ∃ inside, word = c :: inside := by
      rcases List.append_eq_cons_iff.1 begins with ⟨none, -⟩ | ⟨inside, same, -⟩
      · exact absurd none stands.nonempty
      · exact ⟨inside, same⟩
    exact absurd delimits (stands.whole c List.mem_cons_self)
  · exact ⟨front, others, @Stands.of_append [c] front word back stands⟩

theorem Stands.of_word {first rest front word back : List Char} (stands : Stands front word back)
    (other : Stands [] first rest) (same : first ++ rest = front ++ (word ++ back)) :
    word = first ∨ ∃ front, rest = front ++ (word ++ back) ∧ Stands front word back := by
  rcases List.append_eq_append_iff.1 same with ⟨front', rfl, others⟩ | ⟨inside, rfl, begins⟩
  · exact .inr ⟨front', others, stands.of_append⟩
  · cases front with
    | nil => exact .inl (stands.eq_of_append_eq other begins)
    | cons c front =>
        have isLast := List.getLast?_eq_some_getLast (List.cons_ne_nil c front)
        have member := List.mem_append_left inside (List.getLast_mem (List.cons_ne_nil c front))
        exact absurd (stands.started _ isLast) (other.whole _ member)

theorem Splits.spelled_of_stands {chars : List Char} {tokens : List Token} (splits : Splits chars tokens)
    {front word back : List Char} (stands : Stands front word back) (same : chars = front ++ (word ++ back)) :
    ∃ token, Spells word token := by
  induction splits generalizing front with
  | nil => exact absurd (List.append_eq_nil_iff.1 (List.append_eq_nil_iff.1 same.symm).2).1 stands.nonempty
  | blank white others ih =>
      obtain ⟨front, same, stands⟩ := stands.of_delimiter (.inl white) same
      exact ih stands same
  | opening bracket others ih =>
      obtain ⟨front, same, stands⟩ := stands.of_delimiter (.inr ⟨bracket, .inl rfl⟩) same
      exact ih stands same
  | closing bracket others ih =>
      obtain ⟨front, same, stands⟩ := stands.of_delimiter (.inr ⟨bracket, .inr rfl⟩) same
      exact ih stands same
  | word spelled whole ended others ih =>
      rcases stands.of_word ⟨spelled.ne_nil, whole, nofun, ended⟩ same with rfl | ⟨front, same, stands⟩
      · exact ⟨_, spelled⟩
      · exact ih stands same

theorem Apart.left {front first second : List Char} (apart : Apart front (first ++ second)) : Apart front first := by
  intro c isLast d isHead
  apply apart c isLast d
  rw [List.head?_append, Option.mem_def.1 isHead]
  rfl

theorem Apart.append {first second back : List Char} (outer : Apart first (second ++ back))
    (inner : Apart second back) : Apart (first ++ second) back := by
  cases second with
  | nil => rwa [List.append_nil]
  | cons c second =>
      intro last isLast
      rw [List.getLast?_append_of_ne_nil _ (List.cons_ne_nil c second)] at isLast
      exact inner last isLast

structure Cut (front back : List Char) (before : List Token) : Prop where
  splits : Splits front before
  apart : Apart front back

namespace Cut

theorem nil {back : List Char} : Cut [] back [] := ⟨.nil, nofun⟩

theorem append {first front back : List Char} {tokens before : List Token} (outer : Cut first (front ++ back) tokens)
    (inner : Cut front back before) : Cut (first ++ front) back (tokens ++ before) :=
  ⟨outer.splits.append inner.splits outer.apart.left, outer.apart.append inner.apart⟩

theorem delimiter {c : Char} {back : List Char} {tokens : List Token} (splits : Splits [c] tokens)
    (delimits : Delimits c) : Cut [c] back tokens := by
  refine ⟨splits, fun last isLast _ _ => .inl ?_⟩
  cases isLast
  exact delimits

theorem bracket {c : Char} {back : List Char} {token : Token} (found : Token.ofBracket? c = some token) :
    Cut [c] back [token] :=
  .delimiter (Token.splits_bracket found .nil) (Token.isDelimiter_iff.1 (by simp [Token.isDelimiter, found]))

theorem word {word back : List Char} {token : Token} (spelled : Spells word token)
    (ended : ∀ c ∈ back.head?, Delimits c) : Cut word back [token] :=
  ⟨spelled.splits, .of_head ended⟩

theorem stands {front word back : List Char} {before : List Token} (cut : Cut front (word ++ back) before)
    (nonempty : word ≠ []) (whole : ∀ c ∈ word, ¬Delimits c) (ended : ∀ c ∈ back.head?, Delimits c) :
    Stands front word back where
  nonempty := nonempty
  whole := whole
  started c isLast := by
    cases word with
    | nil => exact absurd rfl nonempty
    | cons first word => exact (cut.apart c isLast first rfl).resolve_right (whole first List.mem_cons_self)
  ended := ended

theorem ends_word {first inside more last : List Char} {before : List Token}
    (cut : Cut (first ++ inside) (more ++ last) before) (whole : ∀ c ∈ inside ++ more, ¬Delimits c) :
    inside = [] ∨ more = [] := by
  cases more with
  | nil => exact .inr rfl
  | cons d more =>
      refine .inl (by_contra fun some => ?_)
      have isLast := List.getLast?_append_of_ne_nil first some
      rw [List.getLast?_eq_some_getLast some] at isLast
      rcases cut.apart _ isLast d rfl with delimits | delimits
      · exact whole _ (List.mem_append_left _ (List.getLast_mem some)) delimits
      · exact whole d (List.mem_append_right _ List.mem_cons_self) delimits

theorem le_of_faulty {front back first word last : List Char} {before : List Token} (cut : Cut front back before)
    (stands : Stands first word last) (faulty : ∀ token, ¬Spells word token)
    (same : front ++ back = first ++ (word ++ last)) : ∃ between, first = front ++ between := by
  have outside {more : List Char} (front_eq : front = first ++ (word ++ more))
      (ended : ∀ c ∈ more.head?, Delimits c) : False := by
    obtain ⟨token, spelled⟩ := cut.splits.spelled_of_stands { stands with ended } front_eq
    exact faulty token spelled
  rcases List.append_eq_append_iff.1 same with ⟨between, equal, -⟩ | ⟨inside, rfl, begins⟩
  · exact ⟨between, equal⟩
  · rcases List.append_eq_append_iff.1 begins with ⟨more, rfl, rfl⟩ | ⟨more, rfl, rfl⟩
    · refine (outside rfl fun c isHead => stands.ended c ?_).elim
      rw [List.head?_append, Option.mem_def.1 isHead]
      rfl
    · rcases cut.ends_word stands.whole with rfl | rfl
      · exact ⟨[], by simp⟩
      · exact (@outside [] (by simp) nofun).elim

end Cut

namespace Token

theorem width_eq (chars : List Char) : width chars = (String.ofList chars).utf8ByteSize := by
  rw [String.utf8ByteSize_ofList]
  induction chars with
  | nil => rfl
  | cons c chars ih => rw [width, String.utf8Len_cons, ih, Nat.add_comm]

theorem width_append (first second : List Char) : width (first ++ second) = width first + width second := by
  induction first with
  | nil => rw [List.nil_append, width, Nat.zero_add]
  | cons c first ih => rw [List.cons_append, width, width, ih, Nat.add_assoc]

def CutAt (offset : Nat) (chars : List Char) (position : Nat) (before : List Token) (back : List Char) : Prop :=
  ∃ front, chars = front ++ back ∧ position = offset + width front ∧ Cut front back before

namespace CutAt

variable {offset position : Nat} {first back rest : List Char} {tokens before : List Token}

theorem start (offset : Nat) (chars : List Char) : CutAt offset chars offset [] chars := ⟨[], rfl, rfl, .nil⟩

theorem behind (outer : Cut first rest tokens) (inner : CutAt (offset + width first) rest position before back) :
    CutAt offset (first ++ rest) position (tokens ++ before) back := by
  obtain ⟨front, rfl, rfl, cut⟩ := inner
  exact ⟨first ++ front, by rw [List.append_assoc], by rw [width_append, Nat.add_assoc], outer.append cut⟩

theorem blank {c : Char} (white : Text.isBlank c) (inner : CutAt (offset + c.utf8Size) rest position before back) :
    CutAt offset (c :: rest) position before back :=
  behind (.delimiter (.blank white .nil) (.inl white)) inner

theorem bracket {c : Char} {token : Token} (found : ofBracket? c = some token)
    (inner : CutAt (offset + c.utf8Size) rest position before back) :
    CutAt offset (c :: rest) position (token :: before) back :=
  behind (.bracket found) inner

theorem word {word : List Char} {token : Token} (spelled : Spells word token) (ended : ∀ c ∈ rest.head?, Delimits c)
    (inner : CutAt (offset + width word) rest position before back) :
    CutAt offset (word ++ rest) position (token :: before) back :=
  behind (.word spelled ended) inner

end CutAt

theorem scan_error {offset : Nat} {chars : List Char} {error : SyntaxError} (failed : scan offset chars = .error error) :
    ∃ before word back, CutAt offset chars error.position before (word ++ back) ∧ Stands [] word back ∧
      ∀ token, ¬Spells word token := by
  fun_induction scan offset chars with
  | case1 => cases failed
  | case2 offset c rest white ih =>
      obtain ⟨before, word, back, cut, faulty⟩ := ih failed
      exact ⟨before, word, back, .blank white cut, faulty⟩
  | case3 offset c rest _ token found ih =>
      rcases bind_eq_error.1 failed with failed | ⟨others, -, absurd⟩
      · obtain ⟨before, word, back, cut, faulty⟩ := ih failed
        exact ⟨token :: before, word, back, .bracket found cut, faulty⟩
      · cases absurd
  | case4 offset c rest visible noBracket word =>
      rename_i ih
      rw [cons_eq_firstWord]
      rcases bind_eq_error.1 failed with failed | ⟨token, made, failed⟩
      · obtain ⟨fault, unmade, rfl⟩ := mapError_eq_error.1 failed
        refine ⟨[], word, _, .start _ _, ?_, fun token spelled => ?_⟩
        · exact ⟨List.cons_ne_nil _ _, whole_firstWord visible noBracket, by simp, ended_firstWord⟩
        · rw [ofWord_exact.2 spelled] at unmade
          cases unmade
      · rcases bind_eq_error.1 failed with failed | ⟨others, -, absurd⟩
        · obtain ⟨before, other, back, cut, faulty⟩ := ih failed
          have spelled := ofWord_exact.1 (mapError_eq_ok.1 made)
          exact ⟨token :: before, other, back, .word spelled ended_firstWord cut, faulty⟩
        · cases absurd

theorem text_of_spells {word : List Char} {token : Token} (spelled : Spells word token) : token.text.toList = word := by
  cases spelled with
  | operator op => rfl
  | identifier => exact String.toList_ofList

theorem text_of_bracket {c : Char} {token : Token} (found : ofBracket? c = some token) : token.text.toList = [c] := by
  obtain ⟨bracket, ⟨rfl, rfl⟩ | ⟨rfl, rfl⟩⟩ := ofBracket?_eq_some.1 found
  · exact String.toList_singleton _
  · exact String.toList_singleton _

theorem scan_located {offset : Nat} {chars : List Char} {before after : List (Located Token)} {token : Located Token}
    (scanned : scan offset chars = .ok (before ++ token :: after)) :
    ∃ back, CutAt offset chars token.offset (before.map (·.item)) (token.item.text.toList ++ back) ∧
      Splits back (after.map (·.item)) ∧ Apart token.item.text.toList back := by
  fun_induction scan offset chars generalizing before with
  | case1 => simp at scanned
  | case2 offset c rest white ih =>
      obtain ⟨back, cut, others⟩ := ih scanned
      exact ⟨back, .blank white cut, others⟩
  | case3 offset c rest _ first found ih =>
      obtain ⟨others, run, same⟩ := bind_eq_ok.1 scanned
      cases before with
      | nil =>
          cases same
          have spelled := text_of_bracket found
          refine ⟨rest, ?_, scan_sound run, ?_⟩
          · rw [spelled]
            exact .start _ _
          · rw [spelled]
            exact (Cut.bracket found).apart
      | cons _ before =>
          cases same
          obtain ⟨back, cut, others⟩ := ih run
          exact ⟨back, .bracket found cut, others⟩
  | case4 offset c rest visible noBracket word =>
      rename_i ih
      obtain ⟨first, made, scanned⟩ := bind_eq_ok.1 scanned
      obtain ⟨others, run, same⟩ := bind_eq_ok.1 scanned
      have spelled := ofWord_exact.1 (mapError_eq_ok.1 made)
      rw [cons_eq_firstWord]
      cases before with
      | nil =>
          cases same
          refine ⟨_, ?_, scan_sound run, .of_head ended_firstWord⟩
          rw [text_of_spells spelled]
          exact .start _ _
      | cons _ before =>
          cases same
          obtain ⟨back, cut, others⟩ := ih run
          exact ⟨back, .word spelled ended_firstWord cut, others⟩

theorem ofText_error {text : String} {error : SyntaxError} (failed : ofText text = .error error) :
    IsLeast {offset | FaultyWord text offset} error.position := by
  obtain ⟨before, word, back, ⟨front, split, position, cut⟩, stands, faulty⟩ := scan_error failed
  have text_eq : text = String.ofList front ++ String.ofList word ++ String.ofList back := by
    apply String.toList_injective
    simp [split]
  rw [Nat.zero_add, width_eq] at position
  constructor
  · refine ⟨String.ofList front, String.ofList word, String.ofList back, text_eq, position, ?_, ?_⟩
    · simpa only [String.toList_ofList] using cut.stands stands.nonempty stands.whole stands.ended
    · simpa only [String.toList_ofList] using faulty
  · rintro offset ⟨first, other, last, equal, rfl, stands, faulty⟩
    have same : front ++ (word ++ back) = first.toList ++ (other.toList ++ last.toList) := by
      rw [← split, equal, String.toList_append, String.toList_append, List.append_assoc]
    obtain ⟨between, first_eq⟩ := cut.le_of_faulty stands faulty same
    rw [position, ← String.ofList_toList (s := first), first_eq, String.ofList_append, String.utf8ByteSize_append]
    exact Nat.le_add_right _ _

theorem ofText_located {text : String} {before after : List (Located Token)} {token : Located Token}
    (scanned : ofText text = .ok (before ++ token :: after)) :
    TokenAt text (before.map (·.item)) token.item (after.map (·.item)) token.offset := by
  obtain ⟨back, ⟨front, split, position, cut⟩, others, apart⟩ := scan_located scanned
  rw [Nat.zero_add, width_eq] at position
  refine ⟨String.ofList front, String.ofList back, ?_, position, ?_⟩
  · apply String.toList_injective
    simp [split]
  · simpa only [String.toList_ofList] using ⟨cut.splits, others, cut.apart.left, apart⟩

end Token

end SupplyGraph.Query
